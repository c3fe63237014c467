import PqFl.ActiveVersions
import PqFl.CheckpointPaths
import PqFl.KeyVersions

/-!
# Rounds over restarts

A round that was aggregated is closed to further submissions, but only in the
memory of the process: a restart restores the latest models and opens all rounds
again. The record and the checkpoint of a round are written once as long as no
client submits to a round of an earlier process.
-/

set_option autoImplicit false

namespace PqFl.RecordedRounds
open PqFl.Identifiers PqFl.SeparatedKeys PqFl.StoreRecords PqFl.StateStore PqFl.ListUpdate
open PqFl.Crypto PqFl.Aggregation PqFl.Buffer PqFl.Services PqFl.Process PqFl.ServerStore
open PqFl.JobSteps PqFl.SubmissionTracking PqFl.ModelSteps PqFl.CheckpointWrites
open PqFl.CheckpointPaths PqFl.KeyVersions PqFl.ActiveVersions PqFl.Runs PqFl.Configuration
open PqFl.Floats

variable {F : Type} {d : Deployment F} {s s' : Server F} {a : Action F}

/-- A model as it was computed, under the version that the store gave it. -/
structure AggregatedModel (F : Type) where
  tenantId : String
  modelId : String
  round : ℤ
  version : ℤ
  weights : List F

def recordedModel : Event F → Option (AggregatedModel F)
  | .recorded t m round v weights => some ⟨t, m, round, v, weights⟩
  | _ => none

/-- The calls of `RecordAggregatedModel`, in order. -/
def recordedModels (s : Server F) : List (AggregatedModel F) := s.events.filterMap recordedModel

def aggregatedRound (x : AggregatedModel F) : String × String × ℤ := (x.tenantId, x.modelId, x.round)

def storedRound (x : PersistedModelRecord) : String × String × ℤ :=
  (x.tenantId, x.modelId, x.latestRound)

def requestRound (q : SubmitWeightsRequest) : String × String × ℤ :=
  (normalizeTenant q.tenantId, normalizeModel q.modelId, q.roundIndex)

/-- The round has its record but is not closed yet. -/
def Closing (s : Server F) (round : String × String × ℤ) : Prop :=
  ∃ c job p v, submitting s = some c ∧ c.point = .publish job p v ∧ requestRound c.q = round

/-- Nothing new is recorded for the round. -/
def Closed (s : Server F) (x : PersistedModelRecord) : Prop :=
  storedRound x ∈ s.boot.map storedRound ∨
  roundKey x.tenantId x.modelId x.latestRound ∈ s.world.buffer.completedRounds ∨
  Closing s (storedRound x)

/-- The round of an aggregate without a record has none at all. -/
def UnrecordedPoint (d : Deployment F) (s : Server F) (q : SubmitWeightsRequest) :
    SubmitPoint F → Prop
  | .keyVersion _ p | .record _ p _ =>
    requestRound q ∉ s.world.store.models.map storedRound ∧
    p.checkpointPath = checkpointPath d.config.checkpointDir (normalizeTenant q.tenantId)
      (normalizeModel q.modelId) q.roundIndex
  | _ => True

def aggregatedLabel (x : AggregatedModel F) : (String × String × ℤ) × ℤ :=
  (aggregatedRound x, x.version)

def storedLabel (x : PersistedModelRecord) : (String × String × ℤ) × ℤ := (storedRound x, x.version)

structure Guarded (d : Deployment F) (s : Server F) : Prop where
  recorded : (recordedModels s).map aggregatedLabel = s.world.store.models.map storedLabel
  once : (s.world.store.models.map storedRound).Nodup
  normal : ∀ x ∈ s.world.store.models,
    normalizeTenant x.tenantId = x.tenantId ∧ normalizeModel x.modelId = x.modelId
  paths : ∀ x ∈ s.world.store.models, x.checkpointPath =
    checkpointPath d.config.checkpointDir x.tenantId x.modelId x.latestRound
  closed : ∀ x ∈ s.world.store.models, Closed s x
  point : ∀ c, submitting s = some c → UnrecordedPoint d s c.q c.point

theorem initial_guarded (d : Deployment F) (start : Start) : Guarded d (initial d start) where
  recorded := rfl
  once := List.nodup_nil
  normal := by
    intro x hx
    cases hx
  paths := by
    intro x hx
    cases hx
  closed := by
    intro x hx
    cases hx
  point := by
    intro c hc
    cases hc

theorem recordedModels_eq (s : Server F) :
    recordedModels s = (modelEvents s).filterMap recordedModel := by
  rw [recordedModels, modelEvents, List.filterMap_filter]
  apply List.filterMap_congr
  intro e _
  cases e with
  | _ => rfl

theorem recordedModels_of_events (h : modelEvents s' = modelEvents s) :
    recordedModels s' = recordedModels s := by
  rw [recordedModels_eq, h, recordedModels_eq]

theorem recordedModels_restored {t m : String} {v : ℤ} {weights : List F}
    (hpast : s'.past = s.past) (hhistory : s'.history = s.history ++ [.restored t m v weights]) :
    recordedModels s' = recordedModels s := by
  rw [recordedModels_eq, modelEvents_append hpast hhistory, List.filterMap_append,
    recordedModels_eq]
  exact List.append_nil _

theorem unrecordedPoint_unlocked (s : Server F) (q : SubmitWeightsRequest) {p : SubmitPoint F}
    (h : p.locksBuffer = false) : UnrecordedPoint d s q p := by
  cases p with
  | keyVersion job p => cases h
  | record job p v => cases h
  | _ => trivial

theorem Closed.congr {x : PersistedModelRecord} (h : Closed s x) (hboot : s'.boot = s.boot)
    (hcompleted : s'.world.buffer.completedRounds = s.world.buffer.completedRounds)
    (hsubmitting : submitting s' = submitting s) : Closed s' x := by
  unfold Closed Closing at *
  rw [hboot, hcompleted, hsubmitting]
  exact h

theorem Closed.mono {x : PersistedModelRecord} (h : Closed s x) (hboot : s'.boot = s.boot)
    (hcompleted : s.world.buffer.completedRounds ⊆ s'.world.buffer.completedRounds)
    (hclosing : Closing s (storedRound x) → Closed s' x) : Closed s' x := by
  rcases h with hstored | hdone | hpending
  · left
    rw [hboot]
    exact hstored
  · exact .inr (.inl (hcompleted hdone))
  · exact hclosing hpending

theorem Guarded.move (hs : Guarded d s) (hmodels : s'.world.store.models = s.world.store.models)
    (hevents : recordedModels s' = recordedModels s)
    (hclosed : ∀ x ∈ s.world.store.models, Closed s x → Closed s' x)
    (hpoint : ∀ c, submitting s' = some c → UnrecordedPoint d s' c.q c.point) :
    Guarded d s' := by
  constructor
  · rw [hevents, hmodels]
    exact hs.recorded
  · rw [hmodels]
    exact hs.once
  · rw [hmodels]
    exact hs.normal
  · rw [hmodels]
    exact hs.paths
  · rw [hmodels]
    intro x hx
    exact hclosed x hx (hs.closed x hx)
  · exact hpoint

theorem storedLabel_of_sameVersion {x y : PersistedModelRecord} (h : SameVersion x y) :
    storedLabel y = storedLabel x := by
  rw [h]
  rfl

theorem storedRound_of_sameVersion {x y : PersistedModelRecord} (h : SameVersion x y) :
    storedRound y = storedRound x := by
  rw [h]
  rfl

theorem Guarded.sameVersions (hs : Guarded d s)
    (hmodels : List.Forall₂ SameVersion s.world.store.models s'.world.store.models)
    (hevents : recordedModels s' = recordedModels s) (hboot : s'.boot = s.boot)
    (hcompleted : s'.world.buffer.completedRounds = s.world.buffer.completedRounds)
    (hsubmitting : submitting s' = submitting s) : Guarded d s' := by
  have hrounds : s'.world.store.models.map storedRound = s.world.store.models.map storedRound :=
    map_eq_of_forall₂ storedRound (fun _ _ => storedRound_of_sameVersion) hmodels
  constructor
  · rw [hevents, map_eq_of_forall₂ storedLabel (fun _ _ => storedLabel_of_sameVersion) hmodels]
    exact hs.recorded
  · rw [hrounds]
    exact hs.once
  · intro y hy
    obtain ⟨x, hx, hxy⟩ := forall₂_of_mem hmodels hy
    rw [hxy]
    exact hs.normal x hx
  · intro y hy
    obtain ⟨x, hx, hxy⟩ := forall₂_of_mem hmodels hy
    rw [hxy]
    exact hs.paths x hx
  · intro y hy
    obtain ⟨x, hx, hxy⟩ := forall₂_of_mem hmodels hy
    rw [hxy]
    exact (hs.closed x hx).congr hboot hcompleted hsubmitting
  · intro c hc
    rw [hsubmitting] at hc
    have hpoint := hs.point c hc
    unfold UnrecordedPoint at *
    rw [hrounds]
    exact hpoint

theorem not_closing {c : Submitting F} (hc : submitting s = some c)
    (hpoint : ∀ job p v, c.point ≠ .publish job p v) (round : String × String × ℤ) :
    ¬ Closing s round := by
  rintro ⟨c', job, p, v, hc', hpublish, -⟩
  obtain rfl := Option.some.inj (hc.symm.trans hc')
  exact hpoint job p v hpublish

theorem recorded_guarded {c : Submitting F} {job : Option PersistedTrainingJobRecord}
    {p : Prepared F} {v : ℤ} {x : PersistedModelRecord} (hs : Guarded d s)
    (hc : submitting s = some c) (hpoint : c.point = .record job p v)
    (hnew : requestRound c.q ∉ s.world.store.models.map storedRound)
    (hscope : (x.tenantId, x.modelId) = requestScope c.q) (hround : x.latestRound = c.q.roundIndex)
    (hpath : x.checkpointPath = checkpointPath d.config.checkpointDir
      (normalizeTenant c.q.tenantId) (normalizeModel c.q.modelId) c.q.roundIndex)
    (hmodels : s'.world.store.models = s.world.store.models.map (deactivate
      (normalizeTenant c.q.tenantId) (normalizeModel c.q.modelId)) ++ [x])
    (hevents : modelEvents s' = modelEvents s ++ [.recorded x.tenantId x.modelId x.latestRound
      x.version p.result])
    (hboot : s'.boot = s.boot)
    (hcompleted : s'.world.buffer.completedRounds = s.world.buffer.completedRounds)
    (hnext : submitting s' = some { c with point := .publish job p x.version }) :
    Guarded d s' := by
  have hsame := deactivate_sameVersions (normalizeTenant c.q.tenantId)
    (normalizeModel c.q.modelId) s.world.store.models
  have hrounds := map_eq_of_forall₂ storedRound (fun _ _ => storedRound_of_sameVersion) hsame
  have hlabels := map_eq_of_forall₂ storedLabel (fun _ _ => storedLabel_of_sameVersion) hsame
  obtain ⟨htenant, hmodel⟩ := Prod.mk.inj hscope
  have hthis : storedRound x = requestRound c.q := by
    rw [storedRound, htenant, hmodel, hround]
    rfl
  have hmono : ∀ y, Closed s y → Closed s' y := by
    intro y hy
    apply hy.mono hboot (subset_of_eq hcompleted.symm)
    intro hclosing
    exact absurd hclosing (not_closing hc (by simp [hpoint]) _)
  constructor
  · rw [recordedModels_eq, hevents, List.filterMap_append, ← recordedModels_eq, List.map_append,
      hs.recorded, hmodels, List.map_append, hlabels]
    rfl
  · rw [hmodels, List.map_append, hrounds]
    apply List.Nodup.append hs.once (List.nodup_singleton _)
    rw [hthis]
    exact List.disjoint_singleton.mpr hnew
  · rw [hmodels]
    apply forall_append_one
    · intro y hy
      obtain ⟨z, hz, hzy⟩ := forall₂_of_mem hsame hy
      rw [hzy]
      exact hs.normal z hz
    · rw [htenant, hmodel]
      exact ⟨normalizeTenant_idem _, normalizeModel_idem _⟩
  · rw [hmodels]
    apply forall_append_one
    · intro y hy
      obtain ⟨z, hz, hzy⟩ := forall₂_of_mem hsame hy
      rw [hzy]
      exact hs.paths z hz
    · rw [hpath, htenant, hmodel, hround]
  · rw [hmodels]
    apply forall_append_one
    · intro y hy
      obtain ⟨z, hz, hzy⟩ := forall₂_of_mem hsame hy
      rw [hzy]
      exact hmono z (hs.closed z hz)
    · exact .inr (.inr ⟨_, job, p, x.version, hnext, rfl, hthis.symm⟩)
  · intro c' hc'
    obtain rfl := Option.some.inj (hnext.symm.trans hc')
    trivial

theorem startSubmit_events (s : Server F) (q : SubmitWeightsRequest) (peer : Peer) :
    modelEvents (startSubmit s q peer) = modelEvents s := by
  simp only [modelEvents, Server.events, startSubmit, List.filter_append]
  split
  · exact congrArg _ (List.append_nil _)
  · exact congrArg _ (List.append_nil _)

variable [FloatArith F]

/-- Of every round at most one model was recorded. -/
def RecordedOnce (s : Server F) : Prop := ((recordedModels s).map aggregatedRound).Nodup

/-- The checkpoint of every stored version is as it was before the step. -/
def CheckpointsKept (s s' : Server F) : Prop := ∀ x ∈ s.world.store.models,
  readFile s'.world.files x.checkpointPath = readFile s.world.files x.checkpointPath

/-- An aggregation that writes is of a round which was not stored when the process
started, and to a file which is not that of another scope. -/
def NewRound (d : Deployment F) (s : Server F) : Action F → Prop
  | .proceed o => ∀ c job weights, submitting s = some c → c.point = .add job weights →
      Aggregates d.config.toAggregationConfig s.world.buffer (submission d.config c.q job weights) →
      o.draw.persistence ≠ .cannotOpen →
      requestRound c.q ∉ s.boot.map storedRound ∧
      ∀ x ∈ s.world.store.models, resolvePath x.checkpointPath = resolvePath (checkpointPath
        d.config.checkpointDir (normalizeTenant c.q.tenantId) (normalizeModel c.q.modelId)
        c.q.roundIndex) → (x.tenantId, x.modelId) = requestScope c.q
  | _ => True

theorem unstored_of_aggregates (hs : Guarded d s) {c : Submitting F}
    {job : Option PersistedTrainingJobRecord} {weights : List F} (hc : submitting s = some c)
    (hpoint : c.point = .add job weights)
    (haggregates : Aggregates d.config.toAggregationConfig s.world.buffer
      (submission d.config c.q job weights))
    (hnew : requestRound c.q ∉ s.boot.map storedRound) :
    requestRound c.q ∉ s.world.store.models.map storedRound := by
  intro hstored
  obtain ⟨x, hx, hround⟩ := List.mem_map.mp hstored
  rcases hs.closed x hx with hboot | hdone | hclosing
  · rw [hround] at hboot
    exact hnew hboot
  · obtain ⟨htenant, hmodel, hindex⟩ : x.tenantId = normalizeTenant c.q.tenantId ∧
        x.modelId = normalizeModel c.q.modelId ∧ x.latestRound = c.q.roundIndex := by
      simpa [storedRound, requestRound] using hround
    rw [htenant, hmodel, hindex] at hdone
    exact haggregates.1 hdone
  · exact not_closing hc (by simp [hpoint]) _ hclosing

theorem other_file (hs : Guarded d s) {c : Submitting F} {job : Option PersistedTrainingJobRecord}
    {weights : List F} (hc : submitting s = some c) (hpoint : c.point = .add job weights)
    (haggregates : Aggregates d.config.toAggregationConfig s.world.buffer
      (submission d.config c.q job weights))
    (hnew : requestRound c.q ∉ s.boot.map storedRound ∧
      ∀ x ∈ s.world.store.models, resolvePath x.checkpointPath = resolvePath (checkpointPath
        d.config.checkpointDir (normalizeTenant c.q.tenantId) (normalizeModel c.q.modelId)
        c.q.roundIndex) → (x.tenantId, x.modelId) = requestScope c.q)
    {x : PersistedModelRecord} (hx : x ∈ s.world.store.models) :
    resolvePath x.checkpointPath ≠ resolvePath (checkpointPath d.config.checkpointDir
      (normalizeTenant c.q.tenantId) (normalizeModel c.q.modelId) c.q.roundIndex) := by
  intro hpath
  obtain ⟨htenant, hmodel⟩ := Prod.mk.inj (hnew.2 x hx hpath)
  rw [hs.paths x hx, htenant, hmodel] at hpath
  have hround := checkpointPath_inj hpath
  apply unstored_of_aggregates hs hc hpoint haggregates hnew.1
  refine List.mem_map.mpr ⟨x, hx, ?_⟩
  rw [storedRound, htenant, hmodel, hround]
  rfl

theorem submit_guarded {c : Submitting F} {o : Oracle F} (hs : Guarded d s)
    (ha : NewRound d s (.proceed o)) (hc : submitting s = some c) (h : SubmitStep d s c o s') :
    Guarded d s' := by
  cases h with
  | on hunlocked hview hnext =>
    apply hs.move (congrArg ModelView.models hview)
      (recordedModels_of_events (congrArg ModelView.events hview))
    · intro x _ hclosed
      apply hclosed.mono (congrArg ModelView.boot hview)
        (subset_of_eq (congrArg ModelView.completed hview).symm)
      intro hclosing
      refine absurd hclosing (not_closing hc ?_ _)
      intro job p v hpublish
      rw [hpublish] at hunlocked
      cases hunlocked
    · intro c' hc'
      exact unrecordedPoint_unlocked s' c'.q (hnext c' hc')
  | removed hadd haggregates htorn hview hnext =>
    apply hs.move (congrArg ModelView.models hview)
      (recordedModels_of_events (congrArg ModelView.events hview))
    · intro x _ hclosed
      apply hclosed.mono (congrArg ModelView.boot hview)
        (subset_of_eq (congrArg ModelView.completed hview).symm)
      intro hclosing
      exact absurd hclosing (not_closing hc (by simp [hadd]) _)
    · intro c' hc'
      exact unrecordedPoint_unlocked s' c'.q (hnext c' hc')
  | @written job weights p hadd haggregates hwritten hpath hview hnext =>
    have hmodels : s'.world.store.models = s.world.store.models := congrArg ModelView.models hview
    apply hs.move hmodels (recordedModels_of_events (congrArg ModelView.events hview))
    · intro x _ hclosed
      apply hclosed.mono (congrArg ModelView.boot hview)
        (subset_of_eq (congrArg ModelView.completed hview).symm)
      intro hclosing
      exact absurd hclosing (not_closing hc (by simp [hadd]) _)
    · intro c' hc'
      obtain rfl := Option.some.inj (hnext.symm.trans hc')
      have hnew := unstored_of_aggregates hs hc hadd haggregates
        (ha c job weights hc hadd haggregates (by simp [hwritten])).1
      refine ⟨?_, hpath⟩
      rw [hmodels]
      exact hnew
  | @keyVersion job p hkeyVersion hview hnext =>
    have hmodels : s'.world.store.models = s.world.store.models := congrArg ModelView.models hview
    have hpoint := hs.point c hc
    rw [hkeyVersion] at hpoint
    apply hs.move hmodels (recordedModels_of_events (congrArg ModelView.events hview))
    · intro x _ hclosed
      apply hclosed.mono (congrArg ModelView.boot hview)
        (subset_of_eq (congrArg ModelView.completed hview).symm)
      intro hclosing
      exact absurd hclosing (not_closing hc (by simp [hkeyVersion]) _)
    · intro c' hc'
      obtain rfl := Option.some.inj (hnext.symm.trans hc')
      refine ⟨?_, hpoint.2⟩
      rw [hmodels]
      exact hpoint.1
  | @recorded job p v hrecord hview hnext =>
    have hpoint := hs.point c hc
    rw [hrecord] at hpoint
    exact recorded_guarded hs hc hrecord hpoint.1 rfl rfl hpoint.2
      (congrArg ModelView.models hview) (congrArg ModelView.events hview)
      (congrArg ModelView.boot hview) (congrArg ModelView.completed hview) hnext
  | @published job p v hpublish hview hnext =>
    apply hs.move (congrArg ModelView.models hview)
      (recordedModels_of_events (congrArg ModelView.events hview))
    · have hcompleted : s'.world.buffer.completedRounds = insert (roundKey
          (normalizeTenant c.q.tenantId) (normalizeModel c.q.modelId) c.q.roundIndex)
          s.world.buffer.completedRounds := congrArg ModelView.completed hview
      intro x _ hclosed
      apply hclosed.mono (congrArg ModelView.boot hview)
      · rw [hcompleted]
        exact Finset.subset_insert _ _
      · rintro ⟨c', job', p', v', hc', -, hround⟩
        obtain rfl := Option.some.inj (hc.symm.trans hc')
        obtain ⟨htenant, hmodel, hindex⟩ : normalizeTenant c.q.tenantId = x.tenantId ∧
            normalizeModel c.q.modelId = x.modelId ∧ c.q.roundIndex = x.latestRound := by
          simpa [storedRound, requestRound] using hround
        right
        left
        rw [hcompleted, htenant, hmodel, hindex]
        exact Finset.mem_insert_self _ _
    · intro c' hc'
      exact unrecordedPoint_unlocked s' c'.q (hnext c' hc')

theorem step_guarded (hr : StoreReached s) (hs : Guarded d s) (ha : NewRound d s a)
    (h : Process.step d s a = some s') : Guarded d s' := by
  have hsame : List.Forall₂ SameVersion s.world.store.models s.world.store.models :=
    sameVersions_of_eq rfl
  cases step_modelStep h with
  | kept hkept =>
    apply hs.sameVersions _ (recordedModels_of_events hkept.events) hkept.boot hkept.completed
      hkept.submitting
    rw [hkept.models]
    exact hsame
  | @submit q peer hidle =>
    have hmodels : (startSubmit s q peer).world.store.models = s.world.store.models := rfl
    have hboot : (startSubmit s q peer).boot = s.boot := rfl
    have hcompleted : (startSubmit s q peer).world.buffer.completedRounds =
      s.world.buffer.completedRounds := rfl
    apply hs.move hmodels (recordedModels_of_events (startSubmit_events s q peer))
    · intro x _ hclosed
      apply hclosed.mono hboot (subset_of_eq hcompleted.symm)
      rintro ⟨c, job, p, v, hc, -⟩
      rw [submitting_none hidle] at hc
      cases hc
    · rintro c ⟨⟩
      exact unrecordedPoint_unlocked _ _ (startSubmitWeights_unlocked _ _ _)
  | @proceed c o hc => exact submit_guarded hs ha hc (proceed_submitStep c o)
  | rollback htarget =>
    exact hs.sameVersions (rollback_sameVersions _ _ _ _ _) rfl rfl rfl rfl
  | unreadable hcall hread => exact hs.sameVersions hsame rfl rfl rfl rfl
  | readable hcall hread => exact hs.sameVersions hsame rfl rfl rfl rfl
  | restored hcall hfree =>
    exact hs.sameVersions hsame (recordedModels_restored rfl rfl) rfl rfl rfl
  | rotated hrotated => exact hs.sameVersions hsame rfl rfl rfl rfl
  | restart hrestart =>
    have hrestarted := restart_restarted hr hrestart
    apply hs.move hrestarted.models
    · rw [recordedModels, hrestarted.events, recordedModels]
    · intro x hx _
      left
      rw [hrestarted.boot, hrestarted.models]
      exact List.mem_map_of_mem hx
    · intro c hc
      rw [submitting, hrestarted.federated] at hc
      cases hc

theorem submitStep_readFile {c : Submitting F} {o : Oracle F} (h : SubmitStep d s c o s')
    (path : String) : readFile s'.world.files path = readFile s.world.files path ∨
    ∃ job weights, c.point = .add job weights ∧
      Aggregates d.config.toAggregationConfig s.world.buffer (submission d.config c.q job weights) ∧
      o.draw.persistence ≠ .cannotOpen ∧ resolvePath path = resolvePath (checkpointPath
        d.config.checkpointDir (normalizeTenant c.q.tenantId) (normalizeModel c.q.modelId)
        c.q.roundIndex) := by
  have hsame : s'.world.files = s.world.files →
      readFile s'.world.files path = readFile s.world.files path := by
    intro hfiles
    rw [hfiles]
  cases h with
  | on hunlocked hview hnext => exact .inl (hsame (congrArg ModelView.files hview))
  | @removed job weights hadd haggregates htorn hview hnext =>
    rw [show s'.world.files = _ from congrArg ModelView.files hview]
    by_cases hpath : resolvePath path = resolvePath (checkpointPath d.config.checkpointDir
        (normalizeTenant c.q.tenantId) (normalizeModel c.q.modelId) c.q.roundIndex)
    · exact .inr ⟨job, weights, hadd, haggregates, htorn.2, hpath⟩
    · exact .inl (AList.lookup_erase_ne hpath)
  | @written job weights p hadd haggregates hwritten hfile hview hnext =>
    rw [show s'.world.files = _ from congrArg ModelView.files hview, hfile]
    by_cases hpath : resolvePath path = resolvePath (checkpointPath d.config.checkpointDir
        (normalizeTenant c.q.tenantId) (normalizeModel c.q.modelId) c.q.roundIndex)
    · exact .inr ⟨job, weights, hadd, haggregates, by simp [hwritten], hpath⟩
    · exact .inl (AList.lookup_insert_ne hpath)
  | keyVersion hkeyVersion hview hnext => exact .inl (hsame (congrArg ModelView.files hview))
  | recorded hrecord hview hnext => exact .inl (hsame (congrArg ModelView.files hview))
  | published hpublish hview hnext => exact .inl (hsame (congrArg ModelView.files hview))

theorem step_checkpointsKept (hr : StoreReached s) (hs : Guarded d s) (ha : NewRound d s a)
    (h : Process.step d s a = some s') : CheckpointsKept s s' := by
  intro x hx
  cases step_modelStep h with
  | kept hkept => rw [hkept.files]
  | submit hidle => rfl
  | @proceed c o hc =>
    rcases submitStep_readFile (proceed_submitStep c o) x.checkpointPath with hkept | hwritten
    · exact hkept
    · obtain ⟨job, weights, hadd, haggregates, hopens, hpath⟩ := hwritten
      have hnew := ha c job weights hc hadd haggregates hopens
      exact absurd hpath (other_file hs hc hadd haggregates hnew hx)
  | rollback htarget => rfl
  | unreadable hcall hread => rfl
  | readable hcall hread => rfl
  | restored hcall hfree => rfl
  | rotated hrotated => rfl
  | restart hrestart => rw [(restart_restarted hr hrestart).files]

theorem run_guarded {start : Start}
    (h : Reaches (Process.step d) (NewRound d) (initial d start) s) :
    StoreReached s ∧ Guarded d s := by
  apply h.invariant (I := fun s => StoreReached s ∧ Guarded d s)
  · exact ⟨initial_storeReached d start, initial_guarded d start⟩
  · intro s a s' hs ha hstep
    exact ⟨step_storeReached hs.1 hstep, step_guarded hs.1 hs.2 ha hstep⟩

/-- While nobody submits to a round of an earlier process, no round is recorded
twice and no checkpoint of a stored version is written again. -/
theorem rounds_recorded_once (d : Deployment F) (start : Start) (s : Server F)
    (h : Reaches (Process.step d) (NewRound d) (initial d start) s) :
    RecordedOnce s ∧ ∀ a s', NewRound d s a → Process.step d s a = some s' →
      CheckpointsKept s s' := by
  obtain ⟨hr, hs⟩ := run_guarded h
  constructor
  · have hrounds := congrArg (List.map Prod.fst) hs.recorded
    rw [List.map_map, List.map_map] at hrounds
    unfold RecordedOnce
    rw [show (recordedModels s).map aggregatedRound = _ from hrounds]
    exact hs.once
  · intro a s' ha hstep
    exact step_checkpointsKept hr hs ha hstep

/-- The condition, checked for the steps of a run in one scope. -/
def newRound (s : Server Binary32) : Action Binary32 → Bool
  | .proceed _ =>
    match s.federated with
    | some (.submitWeights q _ _ (.add _ _)) =>
      !(s.boot.map storedRound).contains (requestRound q) &&
        s.world.store.models.all (fun x => (x.tenantId, x.modelId) == requestScope q)
    | _ => true
  | _ => true

theorem newRound_of_newRound (s : Server Binary32) (a : Action Binary32) (h : newRound s a = true) :
    NewRound standardDeployment s a := by
  cases a with
  | proceed o =>
    intro c job weights hc hadd _ _
    unfold newRound at h
    rw [federated_of_submitting hc, hadd] at h
    obtain ⟨hnew, hscopes⟩ := Bool.and_eq_true_iff.mp h
    constructor
    · simpa using hnew
    · intro x hx _
      exact beq_iff_eq.mp (List.all_eq_true.mp hscopes x hx)
  | _ => trivial

/-- Two rounds with a restart between them. -/
theorem rounds_recorded_once_restarted : ∃ s : Server Binary32,
    s.boot.map storedRound = [("t", "m", 1)] ∧
    (recordedModels s).map aggregatedRound = [("t", "m", 1), ("t", "m", 2)] ∧
    RecordedOnce s ∧ ∀ a s', NewRound standardDeployment s a →
      Process.step standardDeployment s a = some s' → CheckpointsKept s s' := by
  have htest : (execTested (Process.step standardDeployment) newRound (twoClients ++
      roundOn 1 0 ++ [.restart firstStart] ++ roundOn 2 1)
      (initial standardDeployment firstStart)).any (fun s =>
        s.boot.map storedRound == [("t", "m", 1)] &&
        (recordedModels s).map aggregatedRound == [("t", "m", 1), ("t", "m", 2)]) = true := by
    decide +kernel
  rw [Option.any_eq_true] at htest
  obtain ⟨s, hs, hresult⟩ := htest
  rw [Bool.and_eq_true, beq_iff_eq, beq_iff_eq] at hresult
  have hreaches := execTested_reaches newRound newRound_of_newRound _ hs
  exact ⟨s, hresult.1, hresult.2,
    rounds_recorded_once standardDeployment firstStart s hreaches⟩

/-- A submission of two weights, one more than in the round before. -/
def widerOn (clientId : String) (round base : ℤ) (steps : ℕ) : List (Action Binary32) :=
  .submitWeights { zeroSubmission clientId round "" "" with
    baseModelVersion := base
    encryptedWeights := List.replicate 8 0 } site :: proceeds steps 1

/-- Two clients complete a round, and after a restart they are about to do it again. -/
def resubmittedRun : List (Action Binary32) :=
  twoClients ++ roundOn 1 0 ++ [.restart firstStart] ++ widerOn "a" 1 1 9 ++ widerOn "b" 1 1 7

/-- The checkpoint is written over, and the round is recorded again. -/
theorem round_recorded_twice :
    (∃ s a s', Reaches (Process.step standardDeployment) Free
        (initial standardDeployment firstStart) s ∧
      Process.step standardDeployment s a = some s' ∧ ¬ CheckpointsKept s s') ∧
    ∃ s, Reaches (Process.step standardDeployment) Free (initial standardDeployment firstStart) s ∧
      ¬ RecordedOnce s := by
  constructor
  · have htest : (exec (Process.step standardDeployment) resubmittedRun
        (initial standardDeployment firstStart)).any (fun s =>
          (Process.step standardDeployment s (.proceed (calm 1))).any (fun s' =>
            s.world.store.models.any (fun x => readFile s'.world.files x.checkpointPath !=
              readFile s.world.files x.checkpointPath))) = true := by
      decide +kernel
    rw [Option.any_eq_true] at htest
    obtain ⟨s, hs, hnext⟩ := htest
    rw [Option.any_eq_true] at hnext
    obtain ⟨s', hs', hdiffer⟩ := hnext
    obtain ⟨x, hx, hfile⟩ := List.any_eq_true.mp hdiffer
    refine ⟨s, _, s', exec_reaches _ hs, hs', ?_⟩
    intro hkept
    exact bne_iff_ne.mp hfile (hkept x hx)
  · have htest : (exec (Process.step standardDeployment) (resubmittedRun ++ proceeds 5 1)
        (initial standardDeployment firstStart)).any (fun s =>
          !decide ((recordedModels s).map aggregatedRound).Nodup) = true := by
      decide +kernel
    rw [Option.any_eq_true] at htest
    obtain ⟨s, hs, htwice⟩ := htest
    refine ⟨s, exec_reaches _ hs, ?_⟩
    simpa [RecordedOnce] using htwice

end PqFl.RecordedRounds
