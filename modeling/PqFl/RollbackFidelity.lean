import PqFl.RecordedRounds

/-!
# What a rollback restores

A version is a record in the store and a checkpoint under the key of its day.
While no aggregation writes a round that a restart opened again, nor the file of
another scope, each checkpoint is the one of its version and opens under all later
keys, and a rollback puts into the buffer what was aggregated.
-/

set_option autoImplicit false

namespace PqFl.RollbackFidelity
open PqFl.Identifiers PqFl.StoreRecords PqFl.StateStore PqFl.ListUpdate PqFl.Crypto
open PqFl.Aggregation PqFl.Buffer PqFl.Services PqFl.Process PqFl.ServerStore PqFl.JobSteps
open PqFl.SubmissionTracking PqFl.ModelSteps PqFl.CheckpointWrites PqFl.KeyVersions
open PqFl.RetainedKeys PqFl.ActiveVersions PqFl.ModelVersions PqFl.RecordedRounds PqFl.Runs
open PqFl.Configuration PqFl.Floats

variable {F : Type} {d : Deployment F} {s s' : Server F} {a : Action F}

/-- The weights are those of the one aggregation which has this version. -/
def AggregatedAs (s : Server F) (t m : String) (v : ℤ) (weights : List F) : Prop :=
  (∃ round, .recorded t m round v weights ∈ s.events) ∧
  ∀ round weights', .recorded t m round v weights' ∈ s.events → weights' = weights

def aggregatedVersion (x : AggregatedModel F) : (String × String) × ℤ :=
  ((x.tenantId, x.modelId), x.version)

def storedVersion (x : PersistedModelRecord) : (String × String) × ℤ :=
  ((x.tenantId, x.modelId), x.version)

theorem versionsUpTo_nodup (n : ℕ) : (versionsUpTo n).Nodup := by
  apply List.Nodup.map _ List.nodup_range
  intro i j h
  dsimp only at h
  omega

theorem storedVersions_nodup (hr : StoreReached s) (hs : Guarded d s) :
    (s.world.store.models.map storedVersion).Nodup := by
  obtain ⟨log, hlog⟩ := reached_numbered hr
  rw [List.Nodup, List.pairwise_map, List.pairwise_iff_forall_sublist]
  intro x y hxy hsame
  obtain ⟨hscope, hversion⟩ := Prod.mk.inj hsame
  obtain ⟨htenant, hmodel⟩ := Prod.mk.inj hscope
  obtain ⟨hnormalTenant, hnormalModel⟩ := hs.normal x (hxy.subset List.mem_cons_self)
  have hpair : [x, y].Sublist (modelsOf s.world.store x.tenantId x.modelId) := by
    have hfilter := hxy.filter (isModelOf (normalizeTenant x.tenantId) (normalizeModel x.modelId))
    rw [hnormalTenant, hnormalModel] at hfilter
    unfold modelsOf
    rw [hnormalTenant, hnormalModel]
    simpa [isModelOf, htenant, hmodel] using hfilter
  have hnodup : ((modelsOf s.world.store x.tenantId x.modelId).map (·.version)).Nodup := by
    rw [(hlog x.tenantId x.modelId).versions]
    exact versionsUpTo_nodup _
  have htwo := hnodup.sublist (hpair.map (·.version))
  simp [hversion] at htwo

theorem mem_recordedModels {t m : String} {round v : ℤ} {weights : List F} :
    ⟨t, m, round, v, weights⟩ ∈ recordedModels s ↔ .recorded t m round v weights ∈ s.events := by
  rw [recordedModels, List.mem_filterMap]
  constructor
  · rintro ⟨e, he, hmodel⟩
    cases e with
    | recorded t' m' round' v' weights' =>
      obtain ⟨rfl, rfl, rfl, rfl, rfl⟩ := AggregatedModel.mk.inj (Option.some.inj hmodel)
      exact he
    | _ => cases hmodel
  · intro he
    exact ⟨_, he, rfl⟩

theorem recorded_unique (hr : StoreReached s) (hs : Guarded d s) {x y : AggregatedModel F}
    (hx : x ∈ recordedModels s) (hy : y ∈ recordedModels s)
    (h : aggregatedVersion x = aggregatedVersion y) : x = y := by
  have hversions := congrArg (List.map (fun label : (String × String × ℤ) × ℤ =>
    ((label.1.1, label.1.2.1), label.2))) hs.recorded
  rw [List.map_map, List.map_map] at hversions
  have hnodup : ((recordedModels s).map aggregatedVersion).Nodup := by
    rw [show (recordedModels s).map aggregatedVersion = _ from hversions]
    exact storedVersions_nodup hr hs
  exact List.inj_on_of_nodup_map hnodup hx hy h

/-- The model which a rollback is about is stored, and what it has read is the
result that was recorded for it. -/
def Wanted (s : Server F) (target : PersistedModelRecord) : RollbackPoint F → Prop
  | .readCheckpoint => ∃ x ∈ s.world.store.models, SameVersion x target
  | .restore weights => ∃ y ∈ recordedModels s,
    aggregatedLabel y = storedLabel target ∧ y.weights = weights

theorem subset_of_recorded (h : recordedModels s' = recordedModels s) :
    recordedModels s ⊆ recordedModels s' := by
  rw [h]
  exact List.Subset.refl _

theorem Wanted.mono {target : PersistedModelRecord} {p : RollbackPoint F} (h : Wanted s target p)
    (hmodels : ∀ x ∈ s.world.store.models, ∃ y ∈ s'.world.store.models, SameVersion x y)
    (hrecorded : recordedModels s ⊆ recordedModels s') : Wanted s' target p := by
  cases p with
  | readCheckpoint =>
    obtain ⟨x, hx, hxt⟩ := h
    obtain ⟨y, hy, hxy⟩ := hmodels x hx
    exact ⟨y, hy, hxy.symm.trans hxt⟩
  | restore weights =>
    obtain ⟨y, hy, hlabel⟩ := h
    exact ⟨y, hrecorded hy, hlabel⟩

theorem aggregatedAs_wanted {target : PersistedModelRecord} {weights : List F}
    (hr : StoreReached s) (hg : Guarded d s) (h : Wanted s target (.restore weights)) :
    AggregatedAs s target.tenantId target.modelId target.version weights := by
  obtain ⟨⟨t, m, round, v, w⟩, hy, hlabel, rfl⟩ := h
  obtain ⟨hround, hversion⟩ := Prod.mk.inj hlabel
  obtain ⟨htenant, hmodel, -⟩ : t = target.tenantId ∧ m = target.modelId ∧
      round = target.latestRound := by
    simpa [aggregatedRound, storedRound] using hround
  dsimp only at hversion
  rw [← htenant, ← hmodel, ← hversion]
  constructor
  · exact ⟨round, mem_recordedModels.mp hy⟩
  · intro round' weights' hother
    have hsame := recorded_unique hr hg (mem_recordedModels.mpr hother) hy rfl
    exact congrArg AggregatedModel.weights hsame

variable [FloatArith F]

/-- A request is for the version which it names, and what a rollback puts into
the buffer is what was aggregated as its version. -/
structure FaithfulRollbacks (d : Deployment F) (s : Server F) : Prop where
  asked : ∀ q peer now s', Process.step d s (.rollbackModel q peer now) = some s' →
    s'.calls = s.calls ∨ ∃ target, s'.calls = s.calls ++ [.rollbackModel target .readCheckpoint] ∧
      isVersionOf (normalizeTenant q.tenantId) (normalizeModel q.modelId) q.targetVersion target =
        true
  restored : ∀ i now s' target weights,
    s.calls[i]? = some (.rollbackModel target (.restore weights)) →
    Process.step d s (.call i now) = some s' →
    (getLatestGlobalModel s'.world.buffer target.tenantId target.modelId).modelVersion =
      target.version ∧
    AggregatedAs s target.tenantId target.modelId target.version
      (getLatestGlobalModel s'.world.buffer target.tenantId target.modelId).weights

def Holds (P : Primitives) (w : World F) (path : String) (weights : List F) : Prop :=
  ∃ e iv, KeysRetained e ∧ KeysKept e w.crypto ∧
    readFile w.files path = some (encryptBlob P e iv (floatBytes weights))

theorem Holds.read {P : Primitives} {w : World F} {path : String} {weights : List F}
    (h : Holds P w path weights) : readCheckpoint P w path = .ok weights := by
  obtain ⟨e, iv, hretained, hkept, hfile⟩ := h
  have hopen := decryptBlob_encryptBlob P e w.crypto iv (floatBytes weights) hretained
    (hkept _ _ hretained.active)
  have hlength : (floatBytes weights).length % 4 = 0 := by
    rw [floatBytes_length]
    omega
  simp only [readCheckpoint, hfile, hopen, hlength, ne_eq, not_true_eq_false, if_false,
    bytesFloats_floatBytes]

theorem Holds.mono {P : Primitives} {w w' : World F} {path : String} {weights : List F}
    (h : Holds P w path weights) (hkeys : KeysKept w.crypto w'.crypto)
    (hfile : readFile w'.files path = readFile w.files path) : Holds P w' path weights := by
  obtain ⟨e, iv, hretained, hkept, hblob⟩ := h
  exact ⟨e, iv, hretained, hkept.trans hkeys, hfile.trans hblob⟩

/-- The file of an aggregate without a record has its result. -/
def SealedResult (d : Deployment F) (s : Server F) : SubmitPoint F → Prop
  | .keyVersion _ p | .record _ p _ => Holds d.primitives s.world p.checkpointPath p.result
  | _ => True

structure Restorable (d : Deployment F) (s : Server F) : Prop where
  retained : Retained (s.world.crypto, s.world.keyFiles)
  stored : ∀ x ∈ s.world.store.models, ∃ y ∈ recordedModels s,
    aggregatedLabel y = storedLabel x ∧ Holds d.primitives s.world x.checkpointPath y.weights
  point : ∀ c, submitting s = some c → SealedResult d s c.point
  calls : ∀ target p, .rollbackModel target p ∈ s.calls → Wanted s target p

theorem initial_restorable (d : Deployment F) (start : Start) :
    Restorable d (initial d start) where
  retained := initial_retained d start
  stored := by
    intro x hx
    cases hx
  point := by
    intro c hc
    cases hc
  calls := by
    intro target p hcall
    cases hcall

theorem sealedResult_unlocked (s : Server F) {p : SubmitPoint F} (h : p.locksBuffer = false) :
    SealedResult d s p := by
  cases p with
  | keyVersion job p => cases h
  | record job p v => cases h
  | _ => trivial

theorem SealedResult.mono {p : SubmitPoint F} (h : SealedResult d s p)
    (hkeys : KeysKept s.world.crypto s'.world.crypto) (hfiles : s'.world.files = s.world.files) :
    SealedResult d s' p := by
  cases p with
  | keyVersion job p => exact Holds.mono h hkeys (by rw [hfiles])
  | record job p v => exact Holds.mono h hkeys (by rw [hfiles])
  | _ => trivial

theorem Restorable.move (hs : Restorable d s)
    (hretained : Retained (s'.world.crypto, s'.world.keyFiles))
    (hkeys : KeysKept s.world.crypto s'.world.crypto) (hfiles : CheckpointsKept s s')
    (hmodels : List.Forall₂ SameVersion s.world.store.models s'.world.store.models)
    (hrecorded : recordedModels s' = recordedModels s)
    (hpoint : ∀ c, submitting s' = some c → SealedResult d s' c.point)
    (hcalls : ∀ target p, .rollbackModel target p ∈ s'.calls → Wanted s' target p) :
    Restorable d s' := by
  refine ⟨hretained, ?_, hpoint, hcalls⟩
  intro y hy
  obtain ⟨x, hx, hxy⟩ := forall₂_of_mem hmodels hy
  obtain ⟨z, hz, hlabel, hholds⟩ := hs.stored x hx
  refine ⟨z, hrecorded ▸ hz, ?_, ?_⟩
  · rw [hlabel, storedLabel_of_sameVersion hxy]
  · rw [hxy]
    exact hholds.mono hkeys (hfiles x hx)

theorem Restorable.beside (hs : Restorable d s)
    (hretained : Retained (s'.world.crypto, s'.world.keyFiles))
    (hkeys : KeysKept s.world.crypto s'.world.crypto) (hkept : CheckpointsKept s s')
    (hmodels : s'.world.store.models = s.world.store.models)
    (hevents : modelEvents s' = modelEvents s) (hcalls : s'.calls = s.calls)
    (hpoint : ∀ c, submitting s' = some c → SealedResult d s' c.point) : Restorable d s' := by
  have hrecorded := recordedModels_of_events hevents
  apply hs.move hretained hkeys hkept (sameVersions_of_eq hmodels) hrecorded hpoint
  intro target p hcall
  rw [hcalls] at hcall
  apply (hs.calls target p hcall).mono
  · exact fun x hx => forall₂_of_mem_left (sameVersions_of_eq hmodels) hx
  · exact subset_of_recorded hrecorded

theorem recorded_restorable {c : Submitting F} {job : Option PersistedTrainingJobRecord}
    {p : Prepared F} {x : PersistedModelRecord} (hs : Restorable d s)
    (hretained : Retained (s'.world.crypto, s'.world.keyFiles))
    (hkeys : KeysKept s.world.crypto s'.world.crypto) (hfiles : s'.world.files = s.world.files)
    (hsealed : Holds d.primitives s.world p.checkpointPath p.result)
    (hpath : x.checkpointPath = p.checkpointPath)
    (hmodels : s'.world.store.models = s.world.store.models.map (deactivate
      (normalizeTenant c.q.tenantId) (normalizeModel c.q.modelId)) ++ [x])
    (hevents : modelEvents s' = modelEvents s ++ [.recorded x.tenantId x.modelId x.latestRound
      x.version p.result])
    (hcalls : s'.calls = s.calls)
    (hnext : submitting s' = some { c with point := .publish job p x.version }) :
    Restorable d s' := by
  have hsame := deactivate_sameVersions (normalizeTenant c.q.tenantId)
    (normalizeModel c.q.modelId) s.world.store.models
  have hrecorded : recordedModels s' = recordedModels s ++
      [⟨x.tenantId, x.modelId, x.latestRound, x.version, p.result⟩] := by
    rw [recordedModels_eq, hevents, List.filterMap_append, ← recordedModels_eq]
    rfl
  have hread : ∀ path, readFile s'.world.files path = readFile s.world.files path := by
    intro path
    rw [hfiles]
  refine ⟨hretained, ?_, ?_, ?_⟩
  · rw [hmodels]
    apply forall_append_one
    · intro y hy
      obtain ⟨z, hz, hzy⟩ := forall₂_of_mem hsame hy
      obtain ⟨u, hu, hlabel, hholds⟩ := hs.stored z hz
      refine ⟨u, ?_, ?_, ?_⟩
      · rw [hrecorded]
        exact List.mem_append_left _ hu
      · rw [hlabel, storedLabel_of_sameVersion hzy]
      · rw [hzy]
        exact hholds.mono hkeys (hread _)
    · refine ⟨⟨x.tenantId, x.modelId, x.latestRound, x.version, p.result⟩, ?_, rfl,
        ?_⟩
      · rw [hrecorded]
        exact List.mem_append_right _ List.mem_cons_self
      · rw [hpath]
        exact hsealed.mono hkeys (hread _)
  · intro c' hc'
    obtain rfl := Option.some.inj (hnext.symm.trans hc')
    trivial
  · intro target point hcall
    rw [hcalls] at hcall
    apply (hs.calls target point hcall).mono
    · intro y hy
      obtain ⟨z, hz, hyz⟩ := forall₂_of_mem_left hsame hy
      refine ⟨z, ?_, hyz⟩
      rw [hmodels]
      exact List.mem_append_left _ hz
    · rw [hrecorded]
      exact List.subset_append_left _ _

theorem submit_restorable {c : Submitting F} {o : Oracle F} (hs : Restorable d s)
    (hretained : Retained (s'.world.crypto, s'.world.keyFiles))
    (hkeys : KeysKept s.world.crypto s'.world.crypto) (hkept : CheckpointsKept s s')
    (hc : submitting s = some c) (h : SubmitStep d s c o s') : Restorable d s' := by
  cases h with
  | on hunlocked hview hnext =>
    apply hs.beside hretained hkeys hkept (congrArg ModelView.models hview)
      (congrArg ModelView.events hview) (congrArg ModelView.calls hview)
    exact fun c' hc' => sealedResult_unlocked s' (hnext c' hc')
  | removed hadd haggregates htorn hview hnext =>
    apply hs.beside hretained hkeys hkept (congrArg ModelView.models hview)
      (congrArg ModelView.events hview) (congrArg ModelView.calls hview)
    exact fun c' hc' => sealedResult_unlocked s' (hnext c' hc')
  | @written job weights p hadd haggregates hwritten hpath hview hnext =>
    have hfiles : s'.world.files = s.world.files.insert (resolvePath p.checkpointPath)
        (encryptBlob d.primitives s.world.crypto o.draw.iv (floatBytes p.result)) :=
      congrArg ModelView.files hview
    apply hs.beside hretained hkeys hkept (congrArg ModelView.models hview)
      (congrArg ModelView.events hview) (congrArg ModelView.calls hview)
    intro c' hc'
    obtain rfl := Option.some.inj (hnext.symm.trans hc')
    refine ⟨s.world.crypto, o.draw.iv, hs.retained.keys, hkeys, ?_⟩
    rw [readFile, hfiles]
    exact AList.lookup_insert _
  | @keyVersion job p hkeyVersion hview hnext =>
    have hpoint := hs.point c hc
    rw [hkeyVersion] at hpoint
    apply hs.beside hretained hkeys hkept (congrArg ModelView.models hview)
      (congrArg ModelView.events hview) (congrArg ModelView.calls hview)
    intro c' hc'
    obtain rfl := Option.some.inj (hnext.symm.trans hc')
    exact hpoint.mono hkeys (congrArg ModelView.files hview)
  | @recorded job p v hrecord hview hnext =>
    have hpoint := hs.point c hc
    rw [hrecord] at hpoint
    exact recorded_restorable hs hretained hkeys (congrArg ModelView.files hview) hpoint rfl
      (congrArg ModelView.models hview) (congrArg ModelView.events hview)
      (congrArg ModelView.calls hview) hnext
  | published hpublish hview hnext =>
    apply hs.beside hretained hkeys hkept (congrArg ModelView.models hview)
      (congrArg ModelView.events hview) (congrArg ModelView.calls hview)
    exact fun c' hc' => sealedResult_unlocked s' (hnext c' hc')

theorem wanted_read {target : PersistedModelRecord} {weights : List F} (hs : Restorable d s)
    (hcall : .rollbackModel target .readCheckpoint ∈ s.calls)
    (hread : readCheckpoint d.primitives s.world target.checkpointPath = .ok weights) :
    ∃ y ∈ recordedModels s, aggregatedLabel y = storedLabel target ∧ y.weights = weights := by
  obtain ⟨x, hx, hxt⟩ := hs.calls target .readCheckpoint hcall
  obtain ⟨y, hy, hlabel, hholds⟩ := hs.stored x hx
  have hpath : target.checkpointPath = x.checkpointPath := by rw [hxt]
  refine ⟨y, hy, ?_, ?_⟩
  · rw [hlabel, storedLabel_of_sameVersion hxt]
  · rw [hpath, hholds.read] at hread
    exact Except.ok.inj hread

theorem step_restorable (hr : StoreReached s) (hg : Guarded d s) (hs : Restorable d s)
    (ha : NewRound d s a) (h : Process.step d s a = some s') : Restorable d s' := by
  obtain ⟨hretained, hkeys⟩ := step_retained hs.retained h
  have hkept := step_checkpointsKept hr hg ha h
  have hsame : List.Forall₂ SameVersion s.world.store.models s.world.store.models :=
    sameVersions_of_eq rfl
  cases step_modelStep h with
  | kept hbeside =>
    apply hs.move hretained hkeys hkept (sameVersions_of_eq hbeside.models)
      (recordedModels_of_events hbeside.events)
    · intro c hc
      rw [hbeside.submitting] at hc
      exact (hs.point c hc).mono hkeys hbeside.files
    · intro target p hcall
      apply (hs.calls target p ((hbeside.rollbacks target p).mp hcall)).mono
      · exact fun x hx => forall₂_of_mem_left (sameVersions_of_eq hbeside.models) hx
      · exact subset_of_recorded (recordedModels_of_events hbeside.events)
  | submit hidle =>
    refine hs.beside hretained hkeys hkept rfl (startSubmit_events s _ _) rfl ?_
    rintro c ⟨⟩
    exact sealedResult_unlocked _ (startSubmitWeights_unlocked _ _ _)
  | @proceed c o hc => exact submit_restorable hs hretained hkeys hkept hc (proceed_submitStep c o)
  | @rollback q peer now target htarget =>
    have hmodels := rollback_sameVersions s.world.store q.tenantId q.modelId q.targetVersion now
    refine hs.move hretained hkeys hkept hmodels rfl hs.point ?_
    intro target p hcall
    rcases List.mem_append.mp hcall with hold | hnew
    · exact (hs.calls target p hold).mono (fun x hx => forall₂_of_mem_left hmodels hx)
        (List.Subset.refl _)
    · cases List.mem_singleton.mp hnew
      obtain ⟨x, hx, hxt, -⟩ := rollback_target htarget
      obtain ⟨y, hy, hxy⟩ := forall₂_of_mem_left hmodels hx
      exact ⟨y, hy, hxy.symm.trans hxt⟩
  | unreadable hcall hread =>
    refine hs.move hretained hkeys hkept hsame rfl hs.point ?_
    intro target p hother
    exact hs.calls target p (List.mem_of_mem_eraseIdx hother)
  | readable hcall hread =>
    refine hs.move hretained hkeys hkept hsame rfl hs.point ?_
    intro target p hother
    rcases List.mem_or_eq_of_mem_set hother with hold | hnew
    · exact hs.calls target p hold
    · have hwanted := wanted_read hs (List.mem_of_getElem? hcall) hread
      cases hnew
      exact hwanted
  | restored hcall hfree =>
    refine hs.move hretained hkeys hkept hsame (recordedModels_restored rfl rfl) hs.point ?_
    intro target p hother
    apply (hs.calls target p (List.mem_of_mem_eraseIdx hother)).mono
    · exact fun x hx => ⟨x, hx, SameVersion.refl x⟩
    · exact subset_of_recorded (recordedModels_restored rfl rfl)
  | rotated hrotated =>
    refine hs.move hretained hkeys hkept hsame rfl ?_ ?_
    · intro c hc
      exact (hs.point c hc).mono hkeys rfl
    · intro target p hother
      rcases List.mem_append.mp hother with hold | hnew
      · exact hs.calls target p hold
      · cases List.mem_singleton.mp hnew
  | restart hrestart =>
    have hrestarted := restart_restarted hr hrestart
    apply hs.move hretained hkeys hkept (sameVersions_of_eq hrestarted.models)
    · rw [recordedModels, hrestarted.events, recordedModels]
    · intro c hc
      rw [submitting, hrestarted.federated] at hc
      cases hc
    · intro target p hcall
      rw [hrestarted.calls] at hcall
      cases hcall

theorem run_restorable {start : Start}
    (h : Reaches (Process.step d) (NewRound d) (initial d start) s) :
    StoreReached s ∧ Guarded d s ∧ Restorable d s := by
  apply h.invariant (I := fun s => StoreReached s ∧ Guarded d s ∧ Restorable d s)
  · exact ⟨initial_storeReached d start, initial_guarded d start, initial_restorable d start⟩
  · intro s a s' hs ha hstep
    obtain ⟨hr, hg, hrestorable⟩ := hs
    exact ⟨step_storeReached hr hstep, step_guarded hr hg ha hstep,
      step_restorable hr hg hrestorable ha hstep⟩

/-- While nobody submits to a round of an earlier process, a rollback restores
what was aggregated as the version that it is asked for. -/
theorem rollbacks_faithful (d : Deployment F) (start : Start) (s : Server F)
    (h : Reaches (Process.step d) (NewRound d) (initial d start) s) : FaithfulRollbacks d s := by
  obtain ⟨hr, hg, hs⟩ := run_restorable h
  constructor
  · intro q peer now s' hstep
    cases hstep
    unfold startRollbackModel
    split
    · exact .inl rfl
    · cases hvalue : (rollbackModel s.world.store q.tenantId q.modelId q.targetVersion now).value with
      | none =>
        left
        simp only [hvalue, List.append_nil]
      | some target =>
        right
        obtain ⟨x, -, hxt, hversion⟩ := rollback_target hvalue
        refine ⟨target, ?_, ?_⟩
        · simp only [hvalue]
        · rw [hxt]
          exact hversion
  · intro i now s' target weights hcall hstep
    have hwanted := hs.calls target _ (List.mem_of_getElem? hcall)
    have hlatest : getLatestGlobalModel s'.world.buffer target.tenantId target.modelId =
        ⟨target.latestRound, target.version, weights⟩ := by
      simp only [Process.step, stepCallAt, hcall, Option.bind_some, stepCall] at hstep
      split at hstep
      · cases hstep
      · cases hstep
        simp only [getLatestGlobalModel, restoreLatestGlobalModel, AList.lookup_insert]
    rw [hlatest]
    exact ⟨rfl, aggregatedAs_wanted hr hg hwanted⟩

/-- The version that the first call is about to restore. -/
def restoring (s : Server Binary32) : Option ((String × String) × ℤ) :=
  match s.calls with
  | .rollbackModel target (.restore _) :: _ => some (storedVersion target)
  | _ => none

theorem call_of_restoring {s : Server Binary32} {version : (String × String) × ℤ}
    (h : restoring s = some version) : ∃ target weights,
      s.calls[0]? = some (.rollbackModel target (.restore weights)) ∧
      storedVersion target = version := by
  unfold restoring at h
  split at h
  · rename_i target weights calls hcalls
    refine ⟨target, weights, ?_, Option.some.inj h⟩
    rw [hcalls]
    rfl
  · cases h

def restoringTo (version : ℤ) : List (Action Binary32) :=
  [.rollbackModel ⟨"t", "m", version⟩ admin 2, .call 0 3]

/-- A rotation, a restart and another round before a rollback to the first one. -/
theorem rollbacks_faithful_rotated : ∃ s : Server Binary32,
    restoring s = some (("t", "m"), 1) ∧ s.world.crypto.activeKeyVersion = 2 ∧
    (recordedModels s).map (·.weights.length) = [1, 2] ∧
    FaithfulRollbacks standardDeployment s := by
  have htest : (execTested (Process.step standardDeployment) newRound (twoClients ++
      roundOn 1 0 ++ [.rotateAtRestKey zeroKey admin, .call 0 2, .restart firstStart] ++
      widerOn "a" 2 1 9 ++ widerOn "b" 2 1 12 ++ restoringTo 1)
      (initial standardDeployment firstStart)).any (fun s =>
        restoring s == some (("t", "m"), 1) && (s.world.crypto.activeKeyVersion == 2 &&
          (recordedModels s).map (·.weights.length) == [1, 2])) = true := by
    decide +kernel
  rw [Option.any_eq_true] at htest
  obtain ⟨s, hs, hresult⟩ := htest
  rw [Bool.and_eq_true, Bool.and_eq_true, beq_iff_eq, beq_iff_eq, beq_iff_eq] at hresult
  have hreaches := execTested_reaches newRound newRound_of_newRound _ hs
  exact ⟨s, hresult.1, hresult.2.1, hresult.2.2,
    rollbacks_faithful standardDeployment firstStart s hreaches⟩

/-- A rollback to the first version of a round which was submitted again restores
the second one, which is longer. -/
theorem rollback_restores_other : ∃ s, Reaches (Process.step standardDeployment) Free
    (initial standardDeployment firstStart) s ∧ ¬ FaithfulRollbacks standardDeployment s := by
  have htest : (exec (Process.step standardDeployment) (resubmittedRun ++ proceeds 5 1 ++
      restoringTo 1) (initial standardDeployment firstStart)).any (fun s =>
        restoring s == some (("t", "m"), 1) &&
        ((recordedModels s).all (fun y => y.version != 1 || y.weights.length == 1) &&
        (Process.step standardDeployment s (.call 0 4)).any (fun s' =>
          (getLatestGlobalModel s'.world.buffer "t" "m").weights.length == 2))) = true := by
    decide +kernel
  rw [Option.any_eq_true] at htest
  obtain ⟨s, hs, hresult⟩ := htest
  rw [Bool.and_eq_true, Bool.and_eq_true, beq_iff_eq, Option.any_eq_true] at hresult
  obtain ⟨hrestoring, hrecorded, s', hstep, hlength⟩ := hresult
  obtain ⟨target, weights, hcall, hversion⟩ := call_of_restoring hrestoring
  obtain ⟨htenant, hmodel, hone⟩ : target.tenantId = "t" ∧ target.modelId = "m" ∧
      target.version = 1 := by
    simpa [storedVersion, and_assoc] using hversion
  refine ⟨s, exec_reaches _ hs, ?_⟩
  intro hfaithful
  have haggregated := (hfaithful.restored 0 4 s' target weights hcall hstep).2
  rw [htenant, hmodel, hone] at haggregated
  obtain ⟨⟨round, hevent⟩, -⟩ := haggregated
  have hshort := List.all_eq_true.mp hrecorded _ (mem_recordedModels.mpr hevent)
  rw [beq_iff_eq] at hlength
  simp [hlength] at hshort

end PqFl.RollbackFidelity
