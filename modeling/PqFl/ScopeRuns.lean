import PqFl.PayloadSources
import PqFl.Refinement
import PqFl.ServerOptimizer
import PqFl.StreamedModels

/-!
# The models of a scope over a run

For every scope, a run of the server is a run of the optimizer: each aggregation
takes a valid round of vectors that requests of the run sent, and rollbacks and
restarts put back models that were published. What the handler of a submission
does in several steps is one step of the optimizer.
-/

set_option autoImplicit false

namespace PqFl.ScopeRuns
open PqFl.Identifiers PqFl.StoreRecords PqFl.StateStore PqFl.Crypto PqFl.Aggregation PqFl.Buffer
open PqFl.Services PqFl.Process PqFl.JobSteps PqFl.SubmissionTracking PqFl.PendingSubmissions PqFl.Runs
open PqFl.ModelSteps PqFl.CheckpointWrites PqFl.RecordedRounds PqFl.RollbackFidelity
open PqFl.LatestModels PqFl.StreamedModels PqFl.BufferSteps PqFl.PayloadSources
open PqFl.ServerOptimizer PqFl.Refinement PqFl.ServerStore PqFl.Floats PqFl.Configuration
open PqFl.ClientPayloads

section
variable {F : Type} [FloatArith F]

/-- Where an aggregation stands: its result has a checkpoint, or a record as well. -/
inductive Stage (F : Type) where
  | settled
  | prepared (result : List F)
  | recorded (result : List F)

/-- What can be seen of a scope. -/
structure View (F : Type) where
  optimizer : Optimizer F
  stage : Stage F
  published : List (List F)

/-- What is aggregated: a valid round of vectors from requests for the scope. -/
structure RoundOf (opened : SubmitWeightsRequest → List F → Prop) (clipNorm : F) (t m : String)
    (clients : WeightMap F) (sizes : SizeMap) : Prop where
  nonempty : clients.entries ≠ []
  valid : validateWeights clients = ""
  requests : ∃ round, FromRequests opened clipNorm (roundKey t m round) clients sizes

/-- A step as far as it can be seen. -/
inductive ViewStep (cfg : AggregationConfig F) (rounds : WeightMap F → SizeMap → Prop) :
    View F → View F → Prop
  | kept (v : View F) : ViewStep cfg rounds v v
  | prepared {y : Optimizer F} {published : List (List F)} {clients : WeightMap F}
      {sizes : SizeMap} (noise overflow : ℕ → F) (h : rounds clients sizes) :
      ViewStep cfg rounds ⟨y, .settled, published⟩ ⟨(computed cfg y clients sizes noise overflow).1,
        .prepared (computed cfg y clients sizes noise overflow).2, published⟩
  | unwritten {y : Optimizer F} {published : List (List F)} {clients : WeightMap F}
      {sizes : SizeMap} (noise overflow : ℕ → F) (h : rounds clients sizes) :
      ViewStep cfg rounds ⟨y, .settled, published⟩
        ⟨(computed cfg y clients sizes noise overflow).1, .settled, published⟩
  | recorded {y : Optimizer F} {result : List F} {published : List (List F)} :
      ViewStep cfg rounds ⟨y, .prepared result, published⟩
        ⟨y, .recorded result, result :: published⟩
  | published {y : Optimizer F} {result : List F} {published : List (List F)} :
      ViewStep cfg rounds ⟨y, .recorded result, published⟩
        ⟨⟨some result, y.velocity⟩, .settled, published⟩
  | restored {y : Optimizer F} {published : List (List F)} {weights : List F}
      (h : weights ∈ published) : ViewStep cfg rounds ⟨y, .settled, published⟩
        ⟨⟨some weights, y.velocity⟩, .settled, published⟩
  | restarted {v : View F} {model : Option (List F)}
      (h : ∀ p, model = some p → p ∈ v.published) :
      ViewStep cfg rounds v ⟨⟨model, none⟩, .settled, v.published⟩

/-- The optimizer is behind while a result has no record, and ahead until it is published. -/
def OptimizerAt (cfg : AggregationConfig F) (rounds : WeightMap F → SizeMap → Prop)
    (x y : Optimizer F) : Stage F → Prop
  | .settled => x = y
  | .prepared result => ∃ clients sizes noise overflow, rounds clients sizes ∧
      computed cfg x clients sizes noise overflow = (y, result)
  | .recorded result => x = ⟨some result, y.velocity⟩

structure Stands (cfg : AggregationConfig F) (rounds : WeightMap F → SizeMap → Prop)
    (x : ScopeModels F) (v : View F) : Prop where
  published : x.published = v.published
  optimizer : OptimizerAt cfg rounds x.optimizer v.optimizer v.stage

theorem ViewStep.answered {cfg : AggregationConfig F} {rounds : WeightMap F → SizeMap → Prop}
    {v v' : View F} (h : ViewStep cfg rounds v v') {x : ScopeModels F}
    (hx : Stands cfg rounds x v) :
    ∃ x', Answers (ServerOptimizer.step cfg) (Permitted rounds) x x' ∧ Stands cfg rounds x' v' := by
  obtain ⟨optimizer, past⟩ := x
  obtain ⟨hpublished, hoptimizer⟩ := hx
  cases h with
  | kept v => exact ⟨_, .inl rfl, hpublished, hoptimizer⟩
  | @prepared y published clients sizes noise overflow hrounds =>
    obtain rfl : optimizer = y := hoptimizer
    exact ⟨_, .inl rfl, hpublished, clients, sizes, noise, overflow, hrounds, rfl⟩
  | @unwritten y published clients sizes noise overflow hrounds =>
    obtain rfl : optimizer = y := hoptimizer
    exact ⟨_, .inr ⟨.unwritten clients sizes noise overflow, hrounds, rfl⟩, hpublished, rfl⟩
  | @recorded y result published =>
    obtain ⟨clients, sizes, noise, overflow, hrounds, hcomputed⟩ := hoptimizer
    refine ⟨⟨⟨some result, y.velocity⟩, result :: past⟩,
      .inr ⟨.aggregated clients sizes noise overflow, hrounds, ?_⟩,
      congrArg (result :: ·) hpublished, rfl⟩
    simp only [ServerOptimizer.step, hcomputed]
  | published => exact ⟨_, .inl rfl, hpublished, hoptimizer⟩
  | @restored y published weights hmem =>
    obtain rfl : optimizer = y := hoptimizer
    have hpast : weights ∈ past := by
      rw [show past = published from hpublished]
      exact hmem
    exact ⟨_, .inr ⟨.restored weights, hpast, rfl⟩, hpublished, rfl⟩
  | @restarted v model hmem =>
    refine ⟨_, .inr ⟨.restarted model, ?_, rfl⟩, hpublished, rfl⟩
    intro p hp
    rw [show past = v.published from hpublished]
    exact hmem p hp

theorem OptimizerAt.mono {cfg : AggregationConfig F} {rounds rounds' : WeightMap F → SizeMap → Prop}
    (hrounds : ∀ clients sizes, rounds clients sizes → rounds' clients sizes) {x y : Optimizer F}
    {stage : Stage F} (h : OptimizerAt cfg rounds x y stage) :
    OptimizerAt cfg rounds' x y stage := by
  cases stage with
  | settled => exact h
  | prepared result =>
    obtain ⟨clients, sizes, noise, overflow, hround, hcomputed⟩ := h
    exact ⟨clients, sizes, noise, overflow, hrounds _ _ hround, hcomputed⟩
  | recorded result => exact h

end

variable {F : Type} {d : Deployment F} {start : Start}
variable {ok : Server F → Action F → Prop} {s s' : Server F} {a : Action F}

def pointStage : SubmitPoint F → Stage F
  | .keyVersion _ p => .prepared p.result
  | .record _ p _ => .prepared p.result
  | .publish _ p _ => .recorded p.result
  | _ => .settled

def stageOf (s : Server F) (scope : String) : Stage F :=
  match submitting s with
  | none => .settled
  | some c => if scopeKey c.q.tenantId c.q.modelId = scope then pointStage c.point else .settled

def isOfScope (scope : String) (y : AggregatedModel F) : Bool :=
  scopeKey y.tenantId y.modelId == scope

/-- The models that were recorded for the scope, the newest first. -/
def publishedOf (s : Server F) (scope : String) : List (List F) :=
  ((recordedModels s).filter (isOfScope scope)).reverse.map (·.weights)

theorem mem_publishedOf {y : AggregatedModel F} {scope : String} (hy : y ∈ recordedModels s)
    (hscope : scope = scopeKey y.tenantId y.modelId) : y.weights ∈ publishedOf s scope := by
  apply List.mem_map_of_mem
  rw [List.mem_reverse, List.mem_filter]
  exact ⟨hy, beq_iff_eq.mpr hscope.symm⟩

theorem publishedOf_congr (h : recordedModels s' = recordedModels s) (scope : String) :
    publishedOf s' scope = publishedOf s scope := by
  rw [publishedOf, h, publishedOf]

theorem publishedOf_recorded {y : AggregatedModel F}
    (h : recordedModels s' = recordedModels s ++ [y]) (scope : String) :
    publishedOf s' scope = if scopeKey y.tenantId y.modelId = scope then
      y.weights :: publishedOf s scope else publishedOf s scope := by
  rw [publishedOf, h, List.filter_append]
  by_cases hscope : scopeKey y.tenantId y.modelId = scope
  · have hown : isOfScope scope y = true := beq_iff_eq.mpr hscope
    rw [if_pos hscope, List.filter_cons_of_pos hown, List.filter_nil, List.reverse_append]
    rfl
  · have hother : ¬ isOfScope scope y = true := fun h => hscope (beq_iff_eq.mp h)
    rw [if_neg hscope, List.filter_cons_of_neg hother, List.filter_nil, List.append_nil]
    rfl

theorem stageOf_congr (h : submitting s' = submitting s) (scope : String) :
    stageOf s' scope = stageOf s scope := by
  rw [stageOf, h, stageOf]

theorem stageOf_none (h : submitting s = none) (scope : String) : stageOf s scope = .settled := by
  rw [stageOf, h]

theorem stageOf_own {c : Submitting F} {scope : String} (hc : submitting s = some c)
    (hscope : scopeKey c.q.tenantId c.q.modelId = scope) :
    stageOf s scope = pointStage c.point := by
  rw [stageOf, hc]
  exact if_pos hscope

theorem stageOf_other {c : Submitting F} {scope : String} (hc : submitting s = some c)
    (hscope : scopeKey c.q.tenantId c.q.modelId ≠ scope) : stageOf s scope = .settled := by
  rw [stageOf, hc]
  exact if_neg hscope

theorem pointStage_unlocked {p : SubmitPoint F} (h : p.locksBuffer = false) :
    pointStage p = .settled := by
  cases p with
  | keyVersion job p => cases h
  | record job p v => cases h
  | publish job p v => cases h
  | _ => rfl

theorem stageOf_unlocked (h : Unlocked s) (scope : String) : stageOf s scope = .settled := by
  cases hc : submitting s with
  | none => exact stageOf_none hc scope
  | some c =>
    by_cases hscope : scopeKey c.q.tenantId c.q.modelId = scope
    · rw [stageOf_own hc hscope]
      exact pointStage_unlocked (h c hc)
    · exact stageOf_other hc hscope

theorem unlocked_of_bufferLocked (h : bufferLocked s = false) : Unlocked s := by
  intro c hc
  rw [bufferLocked, federated_of_submitting hc] at h
  exact h

theorem pointStage_of_stage {p : SubmitPoint F} (h : stage p < 9 ∨ 11 < stage p) :
    pointStage p = .settled := by
  cases p with
  | keyVersion job p => simp [stage] at h
  | record job p v => simp [stage] at h
  | publish job p v => simp [stage] at h
  | _ => rfl

variable [FloatArith F]

def viewOf (s : Server F) (scope : String) : View F :=
  ⟨optimizerOf s.world.buffer scope, stageOf s scope, publishedOf s scope⟩

/-- The rounds that the run so far can have aggregated in a scope. -/
def roundsOf (d : Deployment F) (start : Start) (ok : Server F → Action F → Prop) (s : Server F)
    (t m : String) : WeightMap F → SizeMap → Prop :=
  RoundOf (Opened d start ok s) d.config.clipNorm t m

theorem roundsOf_step (ha : ok s a) (hs : Process.step d s a = some s') {t m : String}
    {clients : WeightMap F} {sizes : SizeMap} (h : roundsOf d start ok s t m clients sizes) :
    roundsOf d start ok s' t m clients sizes := by
  obtain ⟨hne, hvalid, round, hrequests⟩ := h
  exact ⟨hne, hvalid, round, hrequests.mono (fun q raw hopened => hopened.step ha hs)⟩

theorem recordedModels_proceed {c : Submitting F} {o : Oracle F}
    (h : ∀ job p v, c.point ≠ .record job p v) :
    recordedModels (proceedSubmit d s c.q c.peer c.serial o c.point) = recordedModels s := by
  apply recordedModels_of_events
  rw [proceedSubmit_events, observe_events h, List.append_nil]

theorem recordedModels_record {c : Submitting F} {o : Oracle F}
    {job : Option PersistedTrainingJobRecord} {p : Prepared F} {v : ℤ}
    (hpoint : c.point = .record job p v) :
    recordedModels (proceedSubmit d s c.q c.peer c.serial o c.point) = recordedModels s ++
      [⟨normalizeTenant c.q.tenantId, normalizeModel c.q.modelId, c.q.roundIndex,
        nextVersion s.world.store.models (normalizeTenant c.q.tenantId)
          (normalizeModel c.q.modelId), p.result⟩] := by
  rw [recordedModels_eq, proceedSubmit_events, List.filterMap_append, recordedModels_eq, hpoint]
  rfl

theorem proceed_other {c : Submitting F} {o : Oracle F} {scope : String}
    (hc : submitting s = some c) (hscope : scopeKey c.q.tenantId c.q.modelId ≠ scope) :
    viewOf (proceedSubmit d s c.q c.peer c.serial o c.point) scope = viewOf s scope := by
  have hnormal : scope ≠ scopeKey (normalizeTenant c.q.tenantId) (normalizeModel c.q.modelId) := by
    rw [scopeKey_normalize]
    exact hscope.symm
  have hoptimizer : optimizerOf (stepSubmitWeights d s.world c.q c.peer o c.point).1.buffer scope =
      optimizerOf s.world.buffer scope := by
    rcases stepSubmitWeights_buffer (d := d) s.world c.q c.peer o c.point with
      ⟨job, weights, hpoint⟩ | ⟨job, p, v, hpoint⟩ | hsame
    · rw [hpoint]
      exact optimizerOf_other _ _ _ _ _ (submission d.config c.q job weights) _ hnormal
    · rw [hpoint]
      exact optimizerOf_publishedOther _ (submission d.config c.q job []) _ _ hnormal
    · rw [hsame]
  have hstage : stageOf (proceedSubmit d s c.q c.peer c.serial o c.point) scope = .settled := by
    cases hnext : submitting (proceedSubmit d s c.q c.peer c.serial o c.point) with
    | none => exact stageOf_none hnext scope
    | some c' =>
      obtain ⟨p, -, rfl⟩ := submitting_proceed.mp hnext
      exact stageOf_other hnext hscope
  have hpublished : publishedOf (proceedSubmit d s c.q c.peer c.serial o c.point) scope =
      publishedOf s scope := by
    by_cases hrecord : ∃ job p v, c.point = .record job p v
    · obtain ⟨job, p, v, hpoint⟩ := hrecord
      rw [publishedOf_recorded (recordedModels_record hpoint), if_neg hnormal.symm]
    · apply publishedOf_congr
      apply recordedModels_proceed
      intro job p v hpoint
      exact hrecord ⟨job, p, v, hpoint⟩
  have hview := congrArg₂ (fun y p => View.mk y Stage.settled p) hoptimizer hpublished
  unfold viewOf
  rw [stageOf_other hc hscope, hstage]
  exact hview

theorem proceed_settled {c : Submitting F} {o : Oracle F} (scope : String)
    (h : stage c.point < 8 ∨ 11 ≤ stage c.point) :
    stageOf (proceedSubmit d s c.q c.peer c.serial o c.point) scope = .settled := by
  cases hnext : submitting (proceedSubmit d s c.q c.peer c.serial o c.point) with
  | none => exact stageOf_none hnext scope
  | some c' =>
    obtain ⟨p, hp, rfl⟩ := submitting_proceed.mp hnext
    have hstage := next_stage hp
    have hsettled : pointStage p = .settled := pointStage_of_stage (by omega)
    by_cases hscope : scopeKey c.q.tenantId c.q.modelId = scope
    · rw [stageOf_own hnext hscope]
      exact hsettled
    · exact stageOf_other hnext hscope

theorem proceed_silent {c : Submitting F} {o : Oracle F} {scope : String}
    (hc : submitting s = some c) (hscope : scopeKey c.q.tenantId c.q.modelId = scope)
    (h : stage c.point < 8 ∨ 11 < stage c.point) :
    viewOf (proceedSubmit d s c.q c.peer c.serial o c.point) scope = viewOf s scope := by
  have hbuffer : (stepSubmitWeights d s.world c.q c.peer o c.point).1.buffer = s.world.buffer := by
    rcases stepSubmitWeights_buffer (d := d) s.world c.q c.peer o c.point with
      ⟨job, weights, hpoint⟩ | ⟨job, p, v, hpoint⟩ | hsame
    · rw [hpoint] at h
      simp [stage] at h
    · rw [hpoint] at h
      simp [stage] at h
    · exact hsame
  have hrecorded : recordedModels (proceedSubmit d s c.q c.peer c.serial o c.point) =
      recordedModels s := by
    apply recordedModels_proceed
    intro job p v hpoint
    rw [hpoint] at h
    simp [stage] at h
  have hafter := proceed_settled (d := d) (s := s) (o := o) scope (h.imp id Nat.le_of_lt)
  have hbefore : stageOf s scope = .settled := by
    rw [stageOf_own hc hscope]
    exact pointStage_of_stage (by omega)
  unfold viewOf
  rw [hafter, hbefore, publishedOf_congr hrecorded]
  show View.mk (optimizerOf (stepSubmitWeights d s.world c.q c.peer o c.point).1.buffer scope) _ _ =
    _
  rw [hbuffer]

theorem roundKey_of_scope {t m t' m' : String} (h : scopeKey t m = scopeKey t' m') (round : ℤ) :
    roundKey t m round = roundKey t' m' round := by
  unfold roundKey
  rw [h]

theorem inserted_roundOf (h : Sourced d start ok s) {c : Submitting F}
    {job : Option PersistedTrainingJobRecord} {weights : List F} (hc : submitting s = some c)
    (hpoint : c.point = .add job weights) {t m : String}
    (hscope : scopeKey c.q.tenantId c.q.modelId = scopeKey t m)
    (haggregates : Aggregates d.config.toAggregationConfig s.world.buffer
      (submission d.config c.q job weights)) :
    roundsOf d start ok s t m
      (submissions (insertSubmission s.world.buffer d.config.clipNorm
        (submission d.config c.q job weights)) (requestKey c.q))
      (datasetSizes (insertSubmission s.world.buffer d.config.clipNorm
        (submission d.config c.q job weights)) (requestKey c.q)) := by
  have hopened := h.point c weights hc (by rw [hpoint]; rfl)
  have hkey : requestKey c.q = roundKey t m c.q.roundIndex := by
    rw [requestKey, roundKey_normalize]
    exact roundKey_of_scope hscope _
  refine ⟨?_, haggregates.2.2, c.q.roundIndex, ?_⟩
  · have hmany : 1 ≤ (submissions (insertSubmission s.world.buffer d.config.clipNorm
        (submission d.config c.q job weights)) (requestKey c.q)).entries.length :=
      (le_max_left _ _).trans haggregates.2.1
    exact List.ne_nil_of_length_pos hmany
  · rw [← hkey]
    exact h.pending.inserted hopened d.config job (requestKey c.q)

theorem proceed_add (h : Sourced d start ok s) {c : Submitting F} {o : Oracle F}
    (ha : ok s (.proceed o)) (hc : submitting s = some c)
    (hs : Process.step d s (.proceed o) =
      some (proceedSubmit d s c.q c.peer c.serial o c.point))
    {job : Option PersistedTrainingJobRecord} {weights : List F}
    (hpoint : c.point = .add job weights) {t m : String}
    (hscope : scopeKey c.q.tenantId c.q.modelId = scopeKey t m) :
    ViewStep d.config.toAggregationConfig
      (roundsOf d start ok (proceedSubmit d s c.q c.peer c.serial o c.point) t m)
      (viewOf s (scopeKey t m))
      (viewOf (proceedSubmit d s c.q c.peer c.serial o c.point) (scopeKey t m)) := by
  have hkey : scopeKey (submission d.config c.q job weights).tenantId
      (submission d.config c.q job weights).modelId = scopeKey t m :=
    (scopeKey_normalize _ _).trans hscope
  have hrecorded : recordedModels (proceedSubmit d s c.q c.peer c.serial o c.point) =
      recordedModels s := by
    apply recordedModels_proceed
    intro job' p v hother
    cases hpoint.symm.trans hother
  have hbefore : viewOf s (scopeKey t m) = ⟨optimizerOf s.world.buffer (scopeKey t m), .settled,
      publishedOf s (scopeKey t m)⟩ := by
    unfold viewOf
    rw [stageOf_own hc hscope, hpoint]
    rfl
  generalize hadded : addWeight (F := F) d.primitives d.config.toAggregationConfig s.world.crypto
    s.world.files s.world.buffer (submission d.config c.q job weights) o.draw = added
  obtain ⟨b', files', attempt⟩ := added
  have hbuffer : (stepSubmitWeights d s.world c.q c.peer o c.point).1.buffer = b' := by
    simp only [hpoint, stepSubmitWeights, hadded]
  have hafter : viewOf (proceedSubmit d s c.q c.peer c.serial o c.point) (scopeKey t m) =
      ⟨optimizerOf b' (scopeKey t m),
        stageOf (proceedSubmit d s c.q c.peer c.serial o c.point) (scopeKey t m),
        publishedOf s (scopeKey t m)⟩ := by
    rw [← hbuffer, ← publishedOf_congr hrecorded]
    rfl
  have hstep : ownStep d.config.toAggregationConfig s.world.buffer
      (submission d.config c.q job weights) o.draw.noise o.draw.overflow =
      computed d.config.toAggregationConfig (optimizerOf s.world.buffer (scopeKey t m))
        (submissions (insertSubmission s.world.buffer d.config.clipNorm
          (submission d.config c.q job weights)) (requestKey c.q))
        (datasetSizes (insertSubmission s.world.buffer d.config.clipNorm
          (submission d.config c.q job weights)) (requestKey c.q)) o.draw.noise o.draw.overflow := by
    rw [← hkey]
    rfl
  have hrounds := fun haggregates =>
    roundsOf_step ha hs (inserted_roundOf h hc hpoint hscope haggregates)
  have hreturned : ∀ outcome, attempt = .returned outcome →
      stageOf (proceedSubmit d s c.q c.peer c.serial o c.point) (scopeKey t m) = .settled := by
    rintro outcome rfl
    have hnext : submitting (proceedSubmit d s c.q c.peer c.serial o c.point) =
        some { c with point := afterAttempt d.config job outcome } := by
      apply submitting_proceed.mpr
      refine ⟨afterAttempt d.config job outcome, ?_, rfl⟩
      simp only [hpoint, stepSubmitWeights, hadded]
    rw [stageOf_own hnext hscope]
    apply pointStage_of_stage
    rcases afterAttempt_stage d.config job outcome with hstage | hstage
    · rw [hstage]
      omega
    · rw [hstage]
      omega
  rw [hbefore, hafter]
  rcases optimizerOf_added hadded with ⟨p, rfl, haggregates, hown⟩ |
    ⟨outcome, hattempt, hsame | ⟨haggregates, hown⟩⟩
  · have hnext : submitting (proceedSubmit d s c.q c.peer c.serial o c.point) =
        some { c with point := .keyVersion job p } := by
      apply submitting_proceed.mpr
      refine ⟨.keyVersion job p, ?_, rfl⟩
      simp only [hpoint, stepSubmitWeights, hadded]
    rw [hkey, hstep] at hown
    obtain ⟨hoptimizer, hresult⟩ := Prod.ext_iff.mp hown
    dsimp only at hoptimizer hresult
    rw [stageOf_own hnext hscope, hoptimizer]
    show ViewStep _ _ _ ⟨_, .prepared p.result, _⟩
    rw [hresult]
    exact .prepared o.draw.noise o.draw.overflow (hrounds haggregates)
  · rw [hreturned outcome hattempt, ← hkey, hsame]
    exact .kept _
  · rw [hreturned outcome hattempt]
    rw [hkey, hstep] at hown
    rw [hown]
    exact .unwritten o.draw.noise o.draw.overflow (hrounds haggregates)

section
variable {c : Submitting F} {o : Oracle F} {job : Option PersistedTrainingJobRecord}
variable {p : Prepared F} {v : ℤ} {t m : String} {rounds : WeightMap F → SizeMap → Prop}

theorem proceed_keyVersion (hc : submitting s = some c) (hpoint : c.point = .keyVersion job p)
    (hscope : scopeKey c.q.tenantId c.q.modelId = scopeKey t m) :
    viewOf (proceedSubmit d s c.q c.peer c.serial o c.point) (scopeKey t m) =
      viewOf s (scopeKey t m) := by
  have hnext : submitting (proceedSubmit d s c.q c.peer c.serial o c.point) =
      some { c with point := .record job p s.world.crypto.activeKeyVersion } := by
    apply submitting_proceed.mpr
    refine ⟨.record job p s.world.crypto.activeKeyVersion, ?_, rfl⟩
    rw [hpoint]
    rfl
  have hrecorded : recordedModels (proceedSubmit d s c.q c.peer c.serial o c.point) =
      recordedModels s := by
    apply recordedModels_proceed
    intro job' p' v hother
    cases hpoint.symm.trans hother
  unfold viewOf
  rw [stageOf_own hc hscope, stageOf_own hnext hscope, publishedOf_congr hrecorded, hpoint]
  rfl

theorem proceed_record (hc : submitting s = some c) (hpoint : c.point = .record job p v)
    (hscope : scopeKey c.q.tenantId c.q.modelId = scopeKey t m) :
    ViewStep d.config.toAggregationConfig rounds (viewOf s (scopeKey t m))
      (viewOf (proceedSubmit d s c.q c.peer c.serial o c.point) (scopeKey t m)) := by
  obtain ⟨version, hversion⟩ : ∃ version, (stepSubmitWeights d s.world c.q c.peer o c.point).2 =
      .inl (.publish job p version) := by
    rw [hpoint]
    exact ⟨_, rfl⟩
  have hnext := submitting_proceed.mpr ⟨.publish job p version, hversion, rfl⟩
  have hbefore : viewOf s (scopeKey t m) = ⟨optimizerOf s.world.buffer (scopeKey t m),
      .prepared p.result, publishedOf s (scopeKey t m)⟩ := by
    unfold viewOf
    rw [stageOf_own hc hscope, hpoint]
    rfl
  have hafter : viewOf (proceedSubmit d s c.q c.peer c.serial o c.point) (scopeKey t m) =
      ⟨optimizerOf s.world.buffer (scopeKey t m), .recorded p.result,
        p.result :: publishedOf s (scopeKey t m)⟩ := by
    unfold viewOf
    rw [stageOf_own hnext hscope, publishedOf_recorded (recordedModels_record hpoint),
      if_pos ((scopeKey_normalize _ _).trans hscope), hpoint]
    rfl
  rw [hbefore, hafter]
  exact .recorded

theorem proceed_publish (hc : submitting s = some c) (hpoint : c.point = .publish job p v)
    (hscope : scopeKey c.q.tenantId c.q.modelId = scopeKey t m) :
    ViewStep d.config.toAggregationConfig rounds (viewOf s (scopeKey t m))
      (viewOf (proceedSubmit d s c.q c.peer c.serial o c.point) (scopeKey t m)) := by
  have hrecorded : recordedModels (proceedSubmit d s c.q c.peer c.serial o c.point) =
      recordedModels s := by
    apply recordedModels_proceed
    intro job' p' v hother
    cases hpoint.symm.trans hother
  have hbefore : viewOf s (scopeKey t m) = ⟨optimizerOf s.world.buffer (scopeKey t m),
      .recorded p.result, publishedOf s (scopeKey t m)⟩ := by
    unfold viewOf
    rw [stageOf_own hc hscope, hpoint]
    rfl
  have hkey : scopeKey (submission (F := F) d.config c.q job []).tenantId
      (submission (F := F) d.config c.q job []).modelId = scopeKey t m :=
    (scopeKey_normalize _ _).trans hscope
  have hoptimizer := optimizerOf_published s.world.buffer (submission d.config c.q job []) p.result v
  rw [hkey] at hoptimizer
  have hafter : viewOf (proceedSubmit d s c.q c.peer c.serial o c.point) (scopeKey t m) =
      ⟨⟨some p.result, (optimizerOf s.world.buffer (scopeKey t m)).velocity⟩, .settled,
        publishedOf s (scopeKey t m)⟩ := by
    unfold viewOf
    rw [proceed_settled (scopeKey t m) (by rw [hpoint]; simp [stage]),
      publishedOf_congr hrecorded, ← hoptimizer, hpoint]
    rfl
  rw [hbefore, hafter]
  exact .published

end

theorem proceed_viewStep (h : Sourced d start ok s) {c : Submitting F} {o : Oracle F}
    (ha : ok s (.proceed o)) (hc : submitting s = some c)
    (hs : Process.step d s (.proceed o) =
      some (proceedSubmit d s c.q c.peer c.serial o c.point)) (t m : String) :
    ViewStep d.config.toAggregationConfig
      (roundsOf d start ok (proceedSubmit d s c.q c.peer c.serial o c.point) t m)
      (viewOf s (scopeKey t m))
      (viewOf (proceedSubmit d s c.q c.peer c.serial o c.point) (scopeKey t m)) := by
  by_cases hscope : scopeKey c.q.tenantId c.q.modelId = scopeKey t m
  · cases hpoint : c.point with
    | add job weights =>
      rw [← hpoint]
      exact proceed_add h ha hc hs hpoint hscope
    | keyVersion job p =>
      rw [← hpoint, proceed_keyVersion hc hpoint hscope]
      exact .kept _
    | record job p v =>
      rw [← hpoint]
      exact proceed_record hc hpoint hscope
    | publish job p v =>
      rw [← hpoint]
      exact proceed_publish hc hpoint hscope
    | _ =>
      rw [← hpoint, proceed_silent hc hscope (by rw [hpoint]; simp [stage])]
      exact .kept _
  · rw [proceed_other hc hscope]
    exact .kept _

theorem restorePersistedModels_velocity (P : Primitives) (w : World F)
    (models : List PersistedModelRecord) :
    (restorePersistedModels P w models).optimizerVelocity = ∅ := by
  apply List.foldlRecOn models _ (motive := fun b : WeightBuffer F => b.optimizerVelocity = ∅) rfl
  intro b hb model _
  split
  · exact hb
  · exact hb

theorem restart_optimizer {P : Primitives} (h : restart P s start = some s') (scope : String) :
    (optimizerOf s'.world.buffer scope).velocity = none := by
  obtain ⟨w, hw, rfl⟩ := Option.map_eq_some_iff.mp h
  obtain ⟨keys, -, rfl⟩ := Option.map_eq_some_iff.mp hw
  unfold optimizerOf
  dsimp only
  rw [restorePersistedModels_velocity]
  rfl

omit [FloatArith F] in
theorem latest_published (h : LatestRecorded s) {scope : String} {weights : List F}
    (hlatest : (optimizerOf s.world.buffer scope).latest = some weights) :
    weights ∈ publishedOf s scope := by
  obtain ⟨model, hmodel, rfl⟩ := Option.map_eq_some_iff.mp hlatest
  obtain ⟨y, hy, hscope, rfl⟩ := h.latest scope model hmodel
  exact mem_publishedOf hy hscope

theorem step_viewStep (h : Sourced d start ok s) (hr : StoreReached s) (hrestorable : Restorable d s)
    (hlatest : LatestRecorded s') (ha : ok s a) (hs : Process.step d s a = some s')
    (t m : String) : ViewStep d.config.toAggregationConfig (roundsOf d start ok s' t m)
      (viewOf s (scopeKey t m)) (viewOf s' (scopeKey t m)) := by
  cases step_bufferStep hs with
  | kept hbuffer hsubmitting hrecorded =>
    have hsame : viewOf s' (scopeKey t m) = viewOf s (scopeKey t m) := by
      unfold viewOf
      rw [hbuffer, stageOf_congr hsubmitting, publishedOf_congr hrecorded]
    rw [hsame]
    exact .kept _
  | @submit q peer hidle =>
    have hrecorded : recordedModels (startSubmit s q peer) = recordedModels s := by
      have hevents : modelEvents (startSubmit s q peer) = modelEvents s ++ _ :=
        modelEvents_append rfl rfl
      apply recordedModels_of_events
      rw [hevents]
      split
      · exact List.append_nil _
      · exact List.append_nil _
    have hafter : stageOf (startSubmit s q peer) (scopeKey t m) = .settled := by
      apply stageOf_unlocked
      intro c hc
      rw [submitting_startSubmit] at hc
      obtain rfl := Option.some.inj hc
      exact KeyVersions.startSubmitWeights_unlocked _ _ _
    have hsame : viewOf (startSubmit s q peer) (scopeKey t m) = viewOf s (scopeKey t m) := by
      unfold viewOf
      rw [hafter, stageOf_none (submitting_none hidle), publishedOf_congr hrecorded]
      rfl
    rw [hsame]
    exact .kept _
  | @proceed c o hc => exact proceed_viewStep h ha hc hs t m
  | @restored i now _ target weights hcall hfree hbuffer hsubmitting hrecorded =>
    have hsettled := stageOf_unlocked (unlocked_of_bufferLocked hfree) (scopeKey t m)
    have hafter : viewOf s' (scopeKey t m) = ⟨optimizerOf (restoreLatestGlobalModel s.world.buffer
        target.tenantId target.modelId target.latestRound target.version weights) (scopeKey t m),
        .settled, publishedOf s (scopeKey t m)⟩ := by
      unfold viewOf
      rw [hbuffer, stageOf_congr hsubmitting, hsettled, publishedOf_congr hrecorded]
    have hbefore : viewOf s (scopeKey t m) = ⟨optimizerOf s.world.buffer (scopeKey t m), .settled,
        publishedOf s (scopeKey t m)⟩ := by
      unfold viewOf
      rw [hsettled]
    rw [hbefore, hafter]
    by_cases hscope : scopeKey t m = scopeKey target.tenantId target.modelId
    · obtain ⟨y, hy, hlabel, rfl⟩ := hrestorable.calls target _ (List.mem_of_getElem? hcall)
      obtain ⟨⟨htenant, hmodel, -⟩, -⟩ : (y.tenantId = target.tenantId ∧
          y.modelId = target.modelId ∧ y.round = target.latestRound) ∧
          y.version = target.version := by
        simpa [aggregatedLabel, storedLabel, aggregatedRound, storedRound] using hlabel
      have hown : scopeKey t m = scopeKey y.tenantId y.modelId := by
        rw [hscope, htenant, hmodel]
      have hmem := mem_publishedOf hy hown
      rw [hscope, optimizerOf_restored, ← hscope]
      exact .restored hmem
    · rw [optimizerOf_restoredOther _ _ _ _ _ _ hscope]
      exact .kept _
  | restart hrestart =>
    have hrestarted := restart_restarted hr hrestart
    have hrecorded : recordedModels s' = recordedModels s := by
      rw [recordedModels, hrestarted.events, recordedModels]
    have hafter : viewOf s' (scopeKey t m) =
        ⟨⟨(optimizerOf s'.world.buffer (scopeKey t m)).latest, none⟩, .settled,
          (viewOf s (scopeKey t m)).published⟩ := by
      unfold viewOf
      rw [stageOf_none (submitting_none hrestarted.federated), publishedOf_congr hrecorded,
        ← restart_optimizer hrestart (scopeKey t m)]
    rw [hafter]
    apply ViewStep.restarted
    intro p hp
    have hmem := latest_published hlatest hp
    rwa [publishedOf_congr hrecorded] at hmem

/-- What relates the server to the optimizer of a scope. -/
structure Represents (d : Deployment F) (start : Start) (t m : String) (s : Server F)
    (x : ScopeModels F) : Prop where
  sourced : Sourced d start (NewRound d) s
  reached : StoreReached s
  guarded : Guarded d s
  restorable : Restorable d s
  latest : LatestRecorded s
  stands : Stands d.config.toAggregationConfig (roundsOf d start (NewRound d) s t m) x
    (viewOf s (scopeKey t m))

theorem server_refines (d : Deployment F) (start : Start) (t m : String) :
    Refines (Process.step d) (NewRound d) (ServerOptimizer.step d.config.toAggregationConfig)
      (fun s => Permitted (roundsOf d start (NewRound d) s t m)) (Represents d start t m) where
  answers s a s' x ha hs h := by
    have hrestorable := step_restorable h.reached h.guarded h.restorable ha hs
    have hlatest := step_latestRecorded h.reached h.restorable hrestorable h.latest hs
    have hgrown : Stands d.config.toAggregationConfig (roundsOf d start (NewRound d) s' t m) x
        (viewOf s (scopeKey t m)) :=
      ⟨h.stands.published, h.stands.optimizer.mono (fun _ _ hrounds => roundsOf_step ha hs hrounds)⟩
    obtain ⟨x', hanswer, hstands⟩ :=
      (step_viewStep h.sourced h.reached h.restorable hlatest ha hs t m).answered hgrown
    exact ⟨x', hanswer, step_sourced h.sourced ha hs, step_storeReached h.reached hs,
      step_guarded h.reached h.guarded ha hs, hrestorable, hlatest, hstands⟩
  grows s a s' x b ha hs hb := hb.mono (fun _ _ hrounds => roundsOf_step ha hs hrounds)

theorem initial_represents (d : Deployment F) (start : Start) (t m : String) :
    Represents d start t m (initial d start) noModels where
  sourced := initial_sourced d start _
  reached := initial_storeReached d start
  guarded := initial_guarded d start
  restorable := initial_restorable d start
  latest := initial_latestRecorded d start
  stands := ⟨rfl, rfl⟩

/-- Every run of the server, with all its jobs, rollbacks, rotations, restarts and
failed writes, in which no aggregation that writes is of a round stored when the
process started, or goes to the file of another scope, is a run of the optimizer for
every scope. It has published the models that were recorded for the scope, in their order;
each of them was aggregated from a valid round of vectors which requests of the run
sent. Outside of an aggregation it has the model and the velocity of the buffer. -/
theorem scope_run (d : Deployment F) (start : Start) (s : Server F)
    (h : Reaches (Process.step d) (NewRound d) (initial d start) s) (t m : String) :
    ∃ x : ScopeModels F, Reaches (ServerOptimizer.step d.config.toAggregationConfig)
        (Permitted (RoundOf (Opened d start (NewRound d) s) d.config.clipNorm t m)) noModels x ∧
      x.published = publishedOf s (scopeKey t m) ∧
      (Unlocked s → x.optimizer = optimizerOf s.world.buffer (scopeKey t m)) := by
  obtain ⟨x, hx, hrepresents⟩ := (server_refines d start t m).run (initial_represents d start t m) h
  refine ⟨x, hx, hrepresents.stands.published, ?_⟩
  intro hunlocked
  have hoptimizer := hrepresents.stands.optimizer
  rw [show (viewOf s (scopeKey t m)).stage = _ from stageOf_unlocked hunlocked _] at hoptimizer
  exact hoptimizer

def demoServer : Server Binary32 :=
  (execTested (Process.step standardDeployment) newRound demoRound
    (initial standardDeployment firstStart)).get (by decide +kernel)

/-- The optimizer has published the model of the round, and it is the latest one. -/
theorem scope_run_demo : ∃ x : ScopeModels Binary32,
    Reaches (ServerOptimizer.step standardDeployment.config.toAggregationConfig)
      (Permitted (RoundOf (Opened standardDeployment firstStart (NewRound standardDeployment)
        demoServer) standardDeployment.config.clipNorm demoTenantId demoModelId)) noModels x ∧
    x.published.length = 1 ∧
    x.optimizer = optimizerOf demoServer.world.buffer (scopeKey demoTenantId demoModelId) := by
  have hreach : Reaches (Process.step standardDeployment) (NewRound standardDeployment)
      (initial standardDeployment firstStart) demoServer :=
    execTested_reaches newRound newRound_of_newRound demoRound (Option.some_get _).symm
  have hidle : demoServer.federated.isNone = true := by decide +kernel
  have hunlocked : Unlocked demoServer := by
    intro c hc
    rw [submitting_none (Option.isNone_iff_eq_none.mp hidle)] at hc
    cases hc
  obtain ⟨x, hx, hpublished, hoptimizer⟩ :=
    scope_run standardDeployment firstStart demoServer hreach demoTenantId demoModelId
  refine ⟨x, hx, ?_, hoptimizer hunlocked⟩
  rw [hpublished]
  decide +kernel

end PqFl.ScopeRuns
