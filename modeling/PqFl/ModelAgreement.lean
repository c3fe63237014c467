import PqFl.ActiveVersions
import PqFl.KeyVersions

/-!
# The active model in the store and in the buffer

An aggregation and a rollback each write the version to the store first and to
the buffer in a later step. Between the two another of them may write. The buffer
ends up with the version of the store as long as nobody who comes last writes a
version that is no longer active.
-/

set_option autoImplicit false

namespace PqFl.ModelAgreement
open PqFl.Identifiers PqFl.StoreRecords PqFl.StateStore PqFl.ListUpdate PqFl.Crypto
open PqFl.Aggregation PqFl.Buffer PqFl.Services PqFl.Process PqFl.ServerStore PqFl.JobSteps
open PqFl.CertificateBinding PqFl.SubmissionTracking PqFl.ModelSteps PqFl.CheckpointWrites
open PqFl.ActiveVersions PqFl.ModelVersions PqFl.Runs PqFl.Configuration PqFl.Floats
open PqFl.StoreRuns (deactivate_scope)

variable {F : Type} {d : Deployment F} {s s' : Server F} {a : Action F}

def latestVersion (s : Server F) (scope : String × String) : ℤ :=
  (getLatestGlobalModel s.world.buffer scope.1 scope.2).modelVersion

def modelScopes (s : Server F) : List (String × String) :=
  s.world.store.models.map (fun x => (x.tenantId, x.modelId))

/-- A rollback in progress is yet to put this version into the buffer. -/
def RollingBack (calls : List (Call F)) (scope : String × String) (v : ℤ) : Prop :=
  ∃ target p, .rollbackModel target p ∈ calls ∧ (target.tenantId, target.modelId) = scope ∧
    target.version = v

/-- An aggregation is. -/
def Publishing (s : Server F) (scope : String × String) (v : ℤ) : Prop :=
  ∃ c job p, submitting s = some c ∧ c.point = .publish job p v ∧ requestScope c.q = scope

/-- Whoever puts a version into the buffer puts the active one, or somebody else
is yet to put that; and no two scopes with models have the same key. -/
def NewestLast (s : Server F) : Action F → Prop
  | .proceed _ => ∀ c, submitting s = some c → match c.point with
    | .record _ _ _ => ∀ scope ∈ modelScopes s, scopeKey scope.1 scope.2 =
        scopeKey (requestScope c.q).1 (requestScope c.q).2 → scope = requestScope c.q
    | .publish _ _ v => v = activeVersion s (requestScope c.q) ∨
        RollingBack s.calls (requestScope c.q) (activeVersion s (requestScope c.q))
    | _ => True
  | .call i _ => ∀ target weights, s.calls[i]? = some (.rollbackModel target (.restore weights)) →
      target.version = activeVersion s (target.tenantId, target.modelId) ∨
      RollingBack (s.calls.eraseIdx i) (target.tenantId, target.modelId)
        (activeVersion s (target.tenantId, target.modelId))
  | _ => True

structure Coherent (s : Server F) : Prop where
  normal : ∀ scope ∈ modelScopes s,
    normalizeTenant scope.1 = scope.1 ∧ normalizeModel scope.2 = scope.2
  separated : Separated (modelScopes s)
  targets : ∀ target p, .rollbackModel target p ∈ s.calls →
    (target.tenantId, target.modelId) ∈ modelScopes s
  publishes : ∀ c job p v, submitting s = some c → c.point = .publish job p v →
    requestScope c.q ∈ modelScopes s
  latest : ∀ scope ∈ modelScopes s, latestVersion s scope = activeVersion s scope ∨
    RollingBack s.calls scope (activeVersion s scope) ∨
    Publishing s scope (activeVersion s scope)

theorem initial_coherent (d : Deployment F) (start : Start) : Coherent (initial d start) where
  normal := by
    intro scope hscope
    cases hscope
  separated := by
    intro scope hscope
    cases hscope
  targets := by
    intro target p hcall
    cases hcall
  publishes := by
    intro c job p v hc
    cases hc
  latest := by
    intro scope hscope
    cases hscope

theorem latestVersion_of_latest
    (h : s'.world.buffer.latestModels = s.world.buffer.latestModels) (scope : String × String) :
    latestVersion s' scope = latestVersion s scope := by
  unfold latestVersion getLatestGlobalModel
  rw [h]

theorem latestVersion_put {key : String} {round v : ℤ} {weights : List F}
    (h : s'.world.buffer.latestModels =
      s.world.buffer.latestModels.insert key ⟨round, v, weights⟩) (scope : String × String) :
    latestVersion s' scope =
      if scopeKey scope.1 scope.2 = key then v else latestVersion s scope := by
  unfold latestVersion getLatestGlobalModel
  rw [h, LatestModels.lookup_insert_ite]
  by_cases hkey : scopeKey scope.1 scope.2 = key
  · rw [if_pos hkey, if_pos hkey]
  · rw [if_neg hkey, if_neg hkey]

theorem modelScopes_of_sameVersions
    (h : List.Forall₂ SameVersion s.world.store.models s'.world.store.models) :
    modelScopes s' = modelScopes s := by
  apply map_eq_of_forall₂ _ _ h
  intro x y hxy
  rw [hxy]

theorem modelScopes_of_models (h : s'.world.store.models = s.world.store.models) :
    modelScopes s' = modelScopes s := by
  unfold modelScopes
  rw [h]

theorem RollingBack.mono {calls calls' : List (Call F)} {scope : String × String} {v : ℤ}
    (h : RollingBack calls scope v)
    (hcalls : ∀ target p, .rollbackModel target p ∈ calls →
      ∃ p', .rollbackModel target p' ∈ calls') : RollingBack calls' scope v := by
  obtain ⟨target, p, hcall, hscope, hversion⟩ := h
  obtain ⟨p', hcall'⟩ := hcalls target p hcall
  exact ⟨target, p', hcall', hscope, hversion⟩

theorem Publishing.congr {scope : String × String} {v : ℤ} (h : Publishing s scope v)
    (hsubmitting : submitting s' = submitting s) : Publishing s' scope v := by
  obtain ⟨c, job, p, hc, hrest⟩ := h
  exact ⟨c, job, p, hsubmitting.trans hc, hrest⟩

/-- A step which writes neither the active nor the latest version, and loses no
rollback. -/
theorem Coherent.beside (hs : Coherent s)
    (hmodels : s'.world.store.models = s.world.store.models)
    (hlatest : s'.world.buffer.latestModels = s.world.buffer.latestModels)
    (hsubmitting : submitting s' = submitting s)
    (hold : ∀ target p, .rollbackModel target p ∈ s.calls →
      ∃ p', .rollbackModel target p' ∈ s'.calls)
    (hnew : ∀ target p, .rollbackModel target p ∈ s'.calls →
      ∃ p', .rollbackModel target p' ∈ s.calls) : Coherent s' := by
  have hscopes := modelScopes_of_models hmodels
  constructor
  · rw [hscopes]
    exact hs.normal
  · rw [hscopes]
    exact hs.separated
  · intro target p hcall
    obtain ⟨p', hcall'⟩ := hnew target p hcall
    rw [hscopes]
    exact hs.targets target p' hcall'
  · rw [hscopes, hsubmitting]
    exact hs.publishes
  · intro scope hscope
    rw [hscopes] at hscope
    rw [activeVersion_same hmodels, latestVersion_of_latest hlatest]
    rcases hs.latest scope hscope with hagree | hrolling | hpublishing
    · exact .inl hagree
    · exact .inr (.inl (hrolling.mono hold))
    · exact .inr (.inr (hpublishing.congr hsubmitting))

/-- Nobody is between the record of an aggregate and its publication. -/
def Unpublished (s : Server F) : Prop :=
  ∀ c job p v, submitting s = some c → c.point ≠ .publish job p v

theorem unpublished_of_unlocked (h : Unlocked s) : Unpublished s := by
  intro c job p v hc hpoint
  have hlocked := h c hc
  rw [hpoint] at hlocked
  cases hlocked

theorem unpublished_at {c : Submitting F} (hc : submitting s = some c)
    (h : ∀ job p v, c.point ≠ .publish job p v) : Unpublished s := by
  intro c' job p v hc'
  obtain rfl := Option.some.inj (hc.symm.trans hc')
  exact h job p v

theorem Publishing.absurd {scope : String × String} {v : ℤ} (h : Unpublished s) :
    ¬ Publishing s scope v := by
  rintro ⟨c, job, p, hc, hpoint, -⟩
  exact h c job p v hc hpoint

theorem Coherent.on (hs : Coherent s) (hmodels : s'.world.store.models = s.world.store.models)
    (hlatest : s'.world.buffer.latestModels = s.world.buffer.latestModels)
    (hcalls : s'.calls = s.calls) (hbefore : Unpublished s) (hafter : Unpublished s') :
    Coherent s' := by
  have hscopes := modelScopes_of_models hmodels
  constructor
  · rw [hscopes]
    exact hs.normal
  · rw [hscopes]
    exact hs.separated
  · rw [hscopes, hcalls]
    exact hs.targets
  · intro c job p v hc hpoint
    exact absurd hpoint (hafter c job p v hc)
  · intro scope hscope
    rw [hscopes] at hscope
    rw [activeVersion_same hmodels, latestVersion_of_latest hlatest, hcalls]
    rcases hs.latest scope hscope with hagree | hrolling | hpublishing
    · exact .inl hagree
    · exact .inr (.inl hrolling)
    · exact absurd hpublishing (Publishing.absurd hbefore)

theorem Coherent.put (hs : Coherent s) {put : String × String} {round v : ℤ} {weights : List F}
    (hput : put ∈ modelScopes s) (hmodels : s'.world.store.models = s.world.store.models)
    (hlatest : s'.world.buffer.latestModels = s.world.buffer.latestModels.insert
      (scopeKey put.1 put.2) ⟨round, v, weights⟩)
    (hnewest : v = activeVersion s put ∨ RollingBack s'.calls put (activeVersion s put))
    (hothers : ∀ scope w, scope ≠ put → RollingBack s.calls scope w → RollingBack s'.calls scope w)
    (htargets : ∀ target p, .rollbackModel target p ∈ s'.calls →
      .rollbackModel target p ∈ s.calls)
    (hbefore : ∀ scope w, scope ≠ put → ¬ Publishing s scope w) (hafter : Unpublished s') :
    Coherent s' := by
  have hscopes := modelScopes_of_models hmodels
  constructor
  · rw [hscopes]
    exact hs.normal
  · rw [hscopes]
    exact hs.separated
  · rw [hscopes]
    intro target p hcall
    exact hs.targets target p (htargets target p hcall)
  · intro c job p v hc hpoint
    exact absurd hpoint (hafter c job p v hc)
  · intro scope hscope
    rw [hscopes] at hscope
    rw [activeVersion_same hmodels, latestVersion_put hlatest]
    by_cases hkey : scopeKey scope.1 scope.2 = scopeKey put.1 put.2
    · obtain rfl := hs.separated scope hscope put hput hkey
      rw [if_pos hkey]
      rcases hnewest with hactive | hrolling
      · exact .inl hactive
      · exact .inr (.inl hrolling)
    · have hne : scope ≠ put := by
        rintro rfl
        exact hkey rfl
      rw [if_neg hkey]
      rcases hs.latest scope hscope with hagree | hrolling | hpublishing
      · exact .inl hagree
      · exact .inr (.inl (hothers scope _ hne hrolling))
      · exact absurd hpublishing (hbefore scope _ hne)

theorem Coherent.recorded (hs : Coherent s) {c : Submitting F}
    {job : Option PersistedTrainingJobRecord} {p : Prepared F} {v : ℤ} (hbefore : Unpublished s)
    (hscopes : modelScopes s' = modelScopes s ++ [requestScope c.q])
    (hactive : ∀ scope, activeVersion s' scope = if normalizeTenant scope.1 =
      normalizeTenant c.q.tenantId ∧ normalizeModel scope.2 = normalizeModel c.q.modelId then v
      else activeVersion s scope)
    (hlatest : s'.world.buffer.latestModels = s.world.buffer.latestModels)
    (hcalls : s'.calls = s.calls)
    (hnext : submitting s' = some { c with point := .publish job p v })
    (hkeys : ∀ scope ∈ modelScopes s, scopeKey scope.1 scope.2 =
      scopeKey (requestScope c.q).1 (requestScope c.q).2 → scope = requestScope c.q) :
    Coherent s' := by
  constructor
  · rw [hscopes]
    apply forall_append_one hs.normal
    exact ⟨normalizeTenant_idem _, normalizeModel_idem _⟩
  · rw [hscopes]
    intro x hx y hy hkey
    rcases List.mem_append.mp hx with hx | hx
    · rcases List.mem_append.mp hy with hy | hy
      · exact hs.separated x hx y hy hkey
      · obtain rfl := List.mem_singleton.mp hy
        exact hkeys x hx hkey
    · obtain rfl := List.mem_singleton.mp hx
      rcases List.mem_append.mp hy with hy | hy
      · exact (hkeys y hy hkey.symm).symm
      · exact (List.mem_singleton.mp hy).symm
  · rw [hscopes, hcalls]
    intro target p hcall
    exact List.mem_append_left _ (hs.targets target p hcall)
  · intro c' job' p' v' hc' _
    obtain rfl := Option.some.inj (hnext.symm.trans hc')
    rw [hscopes]
    exact List.mem_append_right _ List.mem_cons_self
  · intro scope hscope
    rw [hscopes] at hscope
    rw [hactive, latestVersion_of_latest hlatest, hcalls]
    by_cases hown : scope = requestScope c.q
    · subst hown
      rw [if_pos ⟨normalizeTenant_idem _, normalizeModel_idem _⟩]
      exact .inr (.inr ⟨_, job, p, hnext, rfl, rfl⟩)
    · have hold : scope ∈ modelScopes s := by
        rcases List.mem_append.mp hscope with hold | hnew
        · exact hold
        · exact absurd (List.mem_singleton.mp hnew) hown
      rw [if_neg]
      · rcases hs.latest scope hold with hagree | hrolling | hpublishing
        · exact .inl hagree
        · exact .inr (.inl hrolling)
        · exact absurd hpublishing (Publishing.absurd hbefore)
      · rintro ⟨htenant, hmodel⟩
        obtain ⟨htenant', hmodel'⟩ := hs.normal scope hold
        exact hown (Prod.ext (htenant'.symm.trans htenant) (hmodel'.symm.trans hmodel))

theorem modelScopes_recorded {t m : String} {x : PersistedModelRecord}
    (h : s'.world.store.models = s.world.store.models.map (deactivate t m) ++ [x]) :
    modelScopes s' = modelScopes s ++ [(x.tenantId, x.modelId)] := by
  unfold modelScopes
  rw [h, List.map_append, List.map_map, List.map_singleton]
  congr 1
  apply List.map_congr_left
  intro y _
  obtain ⟨htenant, hmodel, -⟩ := deactivate_scope t m y
  exact Prod.ext htenant hmodel

theorem rollback_coherent (hr : StoreReached s) (hs : Coherent s) {q : RollbackModelRequest}
    {now : ℕ} {target : PersistedModelRecord}
    (htarget : (rollbackModel s.world.store q.tenantId q.modelId q.targetVersion now).value =
      some target) :
    Coherent { s with
      world := s.world.after (rollbackModel s.world.store q.tenantId q.modelId q.targetVersion now)
      calls := s.calls ++ [.rollbackModel target .readCheckpoint] } := by
  obtain ⟨y, hy, hsame, hversion⟩ := rollback_target htarget
  obtain ⟨log, hlog⟩ := reached_numbered hr
  have hscope : (target.tenantId, target.modelId) = (y.tenantId, y.modelId) := by
    rw [hsame]
  have hof : y.tenantId = normalizeTenant q.tenantId ∧ y.modelId = normalizeModel q.modelId ∧
      target.version = q.targetVersion := by
    rw [hsame]
    simpa [isVersionOf, isModelOf, and_assoc] using hversion
  generalize hs' : ({ s with
    world := s.world.after (rollbackModel s.world.store q.tenantId q.modelId q.targetVersion now)
    calls := s.calls ++ [.rollbackModel target .readCheckpoint] } : Server F) = s'
  have hscopes : modelScopes s' = modelScopes s := by
    apply modelScopes_of_sameVersions
    rw [← hs']
    exact rollback_sameVersions _ _ _ _ _
  have hcalls : s'.calls = s.calls ++ [.rollbackModel target .readCheckpoint] := by rw [← hs']
  have hactive : ∀ scope, activeVersion s' scope = if normalizeTenant scope.1 =
      normalizeTenant q.tenantId ∧ normalizeModel scope.2 = normalizeModel q.modelId then
      q.targetVersion else activeVersion s scope := by
    intro scope
    have hafter := rollback_activeVersion (hlog scope.1 scope.2) q.tenantId q.modelId
      q.targetVersion now
    rw [htarget] at hafter
    simp only [Option.isSome_some, and_true] at hafter
    rw [← hs']
    exact hafter
  constructor
  · rw [hscopes]
    exact hs.normal
  · rw [hscopes]
    exact hs.separated
  · rw [hscopes, hcalls]
    intro other p hcall
    rcases List.mem_append.mp hcall with hold | hnew
    · exact hs.targets other p hold
    · cases List.mem_singleton.mp hnew
      rw [hscope]
      exact List.mem_map.mpr ⟨y, hy, rfl⟩
  · rw [hscopes, ← hs']
    exact hs.publishes
  · intro scope hmem
    rw [hscopes] at hmem
    rw [hactive, hcalls]
    split
    · rename_i hown
      obtain ⟨htenant, hmodel⟩ := hs.normal scope hmem
      refine .inr (.inl ⟨target, _, List.mem_append_right _ List.mem_cons_self, ?_, hof.2.2⟩)
      rw [hscope, hof.1, hof.2.1, ← hown.1, ← hown.2, htenant, hmodel]
    · rcases hs.latest scope hmem with hagree | hrolling | hpublishing
      · left
        rw [← hs']
        exact hagree
      · exact .inr (.inl (hrolling.mono
          (fun other p hcall => ⟨p, List.mem_append_left _ hcall⟩)))
      · right; right
        rw [← hs']
        exact hpublishing

theorem restored_coherent (hs : Coherent s) {i now : ℕ} {target : PersistedModelRecord}
    {weights : List F} (hcall : s.calls[i]? = some (.rollbackModel target (.restore weights)))
    (hfree : bufferLocked s = false) (ha : NewestLast s (.call i now)) :
    Coherent { s with
      world := { s.world with
        buffer := restoreLatestGlobalModel s.world.buffer target.tenantId target.modelId
          target.latestRound target.version weights }
      calls := s.calls.eraseIdx i
      history := s.history ++
        [.restored target.tenantId target.modelId target.version weights] } := by
  have hunpublished : Unpublished s := by
    intro c job p v hc hpoint
    unfold bufferLocked at hfree
    rw [federated_of_submitting hc, hpoint] at hfree
    cases hfree
  have hput := hs.targets _ _ (List.mem_of_getElem? hcall)
  have hnewest := ha target weights hcall
  generalize hs' : ({ s with
    world := { s.world with
      buffer := restoreLatestGlobalModel s.world.buffer target.tenantId target.modelId
        target.latestRound target.version weights }
    calls := s.calls.eraseIdx i
    history := s.history ++
      [.restored target.tenantId target.modelId target.version weights] } : Server F) = s'
  have hmodels : s'.world.store.models = s.world.store.models := by rw [← hs']
  have hlatest : s'.world.buffer.latestModels = s.world.buffer.latestModels.insert
      (scopeKey target.tenantId target.modelId) ⟨target.latestRound, target.version, weights⟩ := by
    rw [← hs']
    rfl
  have hcalls : s'.calls = s.calls.eraseIdx i := by rw [← hs']
  have hsubmitting : submitting s' = submitting s := by rw [← hs']; rfl
  rw [← hcalls] at hnewest
  apply hs.put hput hmodels hlatest hnewest
  · rw [hcalls]
    rintro scope w hne ⟨other, p, hmem, hscope, hversion⟩
    have hkept : .rollbackModel other p ∈ replaceCall s.calls i none := by
      apply (mem_replaceCall_of_mem hcall none hmem).resolve_left
      intro heq
      obtain ⟨rfl, -⟩ := Call.rollbackModel.inj heq
      exact hne hscope.symm
    exact ⟨other, p, hkept, hscope, hversion⟩
  · rw [hcalls]
    intro other p hmem
    exact List.mem_of_mem_eraseIdx hmem
  · intro scope w _
    exact Publishing.absurd hunpublished
  · unfold Unpublished
    rw [hsubmitting]
    exact hunpublished

theorem active_version (hr : StoreReached s) {x : PersistedModelRecord}
    (hx : x ∈ getActiveModels s.world.store)
    (hnormal : normalizeTenant x.tenantId = x.tenantId ∧ normalizeModel x.modelId = x.modelId) :
    x.version = activeVersion s (x.tenantId, x.modelId) := by
  obtain ⟨log, hlog⟩ := reached_numbered hr
  have hnumbered := hlog x.tenantId x.modelId
  obtain ⟨hmem, hactive⟩ := List.mem_filter.mp hx
  have hof : x ∈ modelsOf s.world.store x.tenantId x.modelId := by
    apply List.mem_filter.mpr
    refine ⟨hmem, ?_⟩
    rw [hnormal.1, hnormal.2, isModelOf_iff]
    exact ⟨rfl, rfl⟩
  have hversion : x.version ∈ (lastActivated log x.tenantId x.modelId).toList := by
    rw [← hnumbered.active]
    exact List.mem_map.mpr ⟨x, List.mem_filter.mpr ⟨hof, hactive⟩, rfl⟩
  unfold activeVersion
  rw [activeVersion_of_numbered hnumbered]
  rw [Option.mem_toList] at hversion
  rw [hversion]
  rfl

theorem active_exists (hr : StoreReached s) {scope : String × String}
    (hscope : scope ∈ modelScopes s)
    (hnormal : normalizeTenant scope.1 = scope.1 ∧ normalizeModel scope.2 = scope.2) :
    ∃ x ∈ getActiveModels s.world.store, (x.tenantId, x.modelId) = scope := by
  obtain ⟨log, hlog⟩ := reached_numbered hr
  have hnumbered := hlog scope.1 scope.2
  obtain ⟨y, hy, rfl⟩ := List.mem_map.mp hscope
  have hof : y ∈ modelsOf s.world.store y.tenantId y.modelId := by
    apply List.mem_filter.mpr
    refine ⟨hy, ?_⟩
    rw [hnormal.1, hnormal.2, isModelOf_iff]
    exact ⟨rfl, rfl⟩
  cases hlast : lastActivated log y.tenantId y.modelId with
  | none =>
    rw [hnumbered.known.mp hlast] at hof
    cases hof
  | some v =>
    have hv : v ∈ ((modelsOf s.world.store y.tenantId y.modelId).filter (·.active)).map
        (·.version) := by
      rw [hnumbered.active, hlast]
      exact List.mem_cons_self
    obtain ⟨x, hx, -⟩ := List.mem_map.mp hv
    obtain ⟨hmodel, hactive⟩ := List.mem_filter.mp hx
    obtain ⟨hmem, hscope'⟩ := List.mem_filter.mp hmodel
    obtain ⟨htenant, hmodelId⟩ := isModelOf_iff.mp hscope'
    refine ⟨x, List.mem_filter.mpr ⟨hmem, hactive⟩, ?_⟩
    rw [htenant, hmodelId]
    exact Prod.ext hnormal.1 hnormal.2

variable [FloatArith F]

def ModelsAgree (s : Server F) : Prop :=
  ∀ scope ∈ modelScopes s, latestVersion s scope = activeVersion s scope

/-- Every checkpoint that is asked for can be read. -/
def Readable (d : Deployment F) (s : Server F) : Action F → Prop
  | .call i _ => ∀ target, s.calls[i]? = some (.rollbackModel target .readCheckpoint) →
      ∃ weights, readCheckpoint d.primitives s.world target.checkpointPath = .ok weights
  | .restart start => ∀ s', restart d.primitives s start = some s' →
      ∀ x ∈ getActiveModels s'.world.store, ∃ weights,
        readCheckpoint d.primitives s'.world x.checkpointPath = .ok weights
  | _ => True

theorem submit_coherent (hr : StoreReached s) (hs : Coherent s) {c : Submitting F} {o : Oracle F}
    (hc : submitting s = some c) (ha : NewestLast s (.proceed o)) :
    Coherent (proceedSubmit d s c.q c.peer c.serial o c.point) := by
  have hstep := proceed_submitStep (d := d) (s := s) c o
  have hnewest := ha c hc
  cases hstep with
  | on hpoint hview hnext =>
    have hbefore : Unpublished s := unpublished_at hc (fun job p v h => by
      rw [h] at hpoint
      cases hpoint)
    exact hs.on (congrArg ModelView.models hview) (congrArg ModelView.latest hview)
      (congrArg ModelView.calls hview) hbefore (unpublished_of_unlocked hnext)
  | removed hadd haggregates htorn hview hnext =>
    have hbefore : Unpublished s := unpublished_at hc (by simp [hadd])
    exact hs.on (congrArg ModelView.models hview) (congrArg ModelView.latest hview)
      (congrArg ModelView.calls hview) hbefore (unpublished_of_unlocked hnext)
  | written hadd haggregates hwritten hpath hview hnext =>
    have hbefore : Unpublished s := unpublished_at hc (by simp [hadd])
    exact hs.on (congrArg ModelView.models hview) (congrArg ModelView.latest hview)
      (congrArg ModelView.calls hview) hbefore (unpublished_at hnext (by simp))
  | keyVersion hpoint hview hnext =>
    have hbefore : Unpublished s := unpublished_at hc (by simp [hpoint])
    exact hs.on (congrArg ModelView.models hview) (congrArg ModelView.latest hview)
      (congrArg ModelView.calls hview) hbefore (unpublished_at hnext (by simp))
  | recorded hpoint hview hnext =>
    have hbefore : Unpublished s := unpublished_at hc (by simp [hpoint])
    rw [hpoint] at hnewest
    exact hs.recorded hbefore (modelScopes_recorded (congrArg ModelView.models hview))
      (recording_activeVersion hr hpoint) (congrArg ModelView.latest hview)
      (congrArg ModelView.calls hview) hnext hnewest
  | @published job p v hpoint hview hnext =>
    rw [hpoint] at hnewest
    have hcalls : (proceedSubmit d s c.q c.peer c.serial o c.point).calls = s.calls :=
      congrArg ModelView.calls hview
    apply hs.put (hs.publishes c job p v hc hpoint) (congrArg ModelView.models hview)
      (congrArg ModelView.latest hview)
    · rw [hcalls]
      exact hnewest
    · rw [hcalls]
      exact fun _ _ _ h => h
    · rw [hcalls]
      exact fun _ _ h => h
    · rintro scope w hne ⟨c', job', p', hc', -, hscope⟩
      obtain rfl := Option.some.inj (hc.symm.trans hc')
      exact hne hscope.symm
    · exact unpublished_of_unlocked hnext

/-- One model of `RestorePersistedModels`. -/
def restoreModel (P : Primitives) (w : World F) (b : WeightBuffer F)
    (model : PersistedModelRecord) : WeightBuffer F :=
  match readCheckpoint P w model.checkpointPath with
  | .error _ => b
  | .ok weights => restoreLatestGlobalModel b model.tenantId model.modelId model.latestRound
      model.version weights

/-- The version which the buffer has under a key, if it has one. -/
def versionUnder (b : WeightBuffer F) (key : String) : Option ℤ :=
  (b.latestModels.lookup key).map (·.modelVersion)

theorem versionUnder_restoreModel {P : Primitives} {w : World F} {b : WeightBuffer F}
    {model : PersistedModelRecord}
    (h : ∃ weights, readCheckpoint P w model.checkpointPath = .ok weights) (key : String) :
    versionUnder (restoreModel P w b model) key =
      if key = scopeKey model.tenantId model.modelId then some model.version
      else versionUnder b key := by
  obtain ⟨weights, hread⟩ := h
  unfold versionUnder restoreModel
  rw [hread]
  dsimp only [restoreLatestGlobalModel]
  rw [LatestModels.lookup_insert_ite]
  split
  · rfl
  · rfl

theorem versionUnder_restored {P : Primitives} {w : World F} {key : String} {v : ℤ}
    (models : List PersistedModelRecord) (b : WeightBuffer F)
    (hread : ∀ x ∈ models, ∃ weights, readCheckpoint P w x.checkpointPath = .ok weights)
    (hversion : ∀ x ∈ models, key = scopeKey x.tenantId x.modelId → x.version = v)
    (hsome : versionUnder b key = some v ∨ ∃ x ∈ models, key = scopeKey x.tenantId x.modelId) :
    versionUnder (models.foldl (restoreModel P w) b) key = some v := by
  induction models generalizing b with
  | nil =>
    rcases hsome with hsome | ⟨x, hx, -⟩
    · exact hsome
    · cases hx
  | cons y ys ih =>
    rw [List.foldl_cons]
    apply ih
    · exact fun x hx => hread x (List.mem_cons_of_mem _ hx)
    · exact fun x hx => hversion x (List.mem_cons_of_mem _ hx)
    · rw [versionUnder_restoreModel (hread y List.mem_cons_self)]
      by_cases hkey : key = scopeKey y.tenantId y.modelId
      · left
        rw [if_pos hkey, hversion y List.mem_cons_self hkey]
      · rw [if_neg hkey]
        rcases hsome with hsome | ⟨x, hx, hxkey⟩
        · exact .inl hsome
        · rcases List.mem_cons.mp hx with rfl | hx
          · exact absurd hxkey hkey
          · exact .inr ⟨x, hx, hxkey⟩

theorem restart_coherent (hr : StoreReached s) (hs : Coherent s) {start : Start}
    (ha : Readable d s (.restart start)) (h : Process.step d s (.restart start) = some s') :
    Coherent s' := by
  have hreached := step_storeReached hr h
  have hrestarted := restart_restarted hr h
  have hscopes := modelScopes_of_models hrestarted.models
  have hnormal : ∀ scope ∈ modelScopes s',
      normalizeTenant scope.1 = scope.1 ∧ normalizeModel scope.2 = scope.2 := by
    rw [hscopes]
    exact hs.normal
  have hseparated : Separated (modelScopes s') := by
    rw [hscopes]
    exact hs.separated
  have hread := ha s' h
  have hbuffer : s'.world.buffer = (getActiveModels s'.world.store).foldl
      (restoreModel d.primitives s'.world) emptyBuffer := by
    obtain ⟨w, hw, rfl⟩ := Option.map_eq_some_iff.mp h
    obtain ⟨keys, hkeys, rfl⟩ := Option.map_eq_some_iff.mp hw
    rfl
  have hsubmitting : submitting s' = none := submitting_none hrestarted.federated
  refine ⟨hnormal, hseparated, ?_, ?_, ?_⟩
  · intro target p hcall
    rw [hrestarted.calls] at hcall
    cases hcall
  · intro c job p v hc
    rw [hsubmitting] at hc
    cases hc
  · intro scope hscope
    left
    have hone : ∀ x ∈ getActiveModels s'.world.store,
        scopeKey scope.1 scope.2 = scopeKey x.tenantId x.modelId →
          x.version = activeVersion s' scope := by
      intro x hx hkey
      have hmem : (x.tenantId, x.modelId) ∈ modelScopes s' :=
        List.mem_map.mpr ⟨x, (List.mem_filter.mp hx).1, rfl⟩
      rw [hseparated scope hscope _ hmem hkey]
      exact active_version hreached hx (hnormal _ hmem)
    obtain ⟨x, hx, hxscope⟩ := active_exists hreached hscope (hnormal scope hscope)
    have hkey : scopeKey scope.1 scope.2 = scopeKey x.tenantId x.modelId := by rw [← hxscope]
    have hversion := versionUnder_restored (getActiveModels s'.world.store) emptyBuffer hread hone
      (.inr ⟨x, hx, hkey⟩)
    rw [← hbuffer] at hversion
    obtain ⟨latest, hlatest, hmodel⟩ := Option.map_eq_some_iff.mp hversion
    unfold latestVersion getLatestGlobalModel
    rw [hlatest]
    exact hmodel

theorem step_coherent (hr : StoreReached s) (hs : Coherent s) (hread : Readable d s a)
    (ha : NewestLast s a) (h : Process.step d s a = some s') : Coherent s' := by
  cases step_modelStep h with
  | kept hkept =>
    exact hs.beside hkept.models hkept.latest hkept.submitting
      (fun target p hcall => ⟨p, (hkept.rollbacks target p).mpr hcall⟩)
      (fun target p hcall => ⟨p, (hkept.rollbacks target p).mp hcall⟩)
  | @submit q peer hidle =>
    have hbefore : Unpublished s := by
      intro c job p v hc
      rw [submitting_none hidle] at hc
      cases hc
    refine hs.on rfl rfl rfl hbefore ?_
    apply unpublished_of_unlocked
    rintro c ⟨⟩
    exact KeyVersions.startSubmitWeights_unlocked _ _ _
  | proceed hc => exact submit_coherent hr hs hc ha
  | rollback htarget => exact rollback_coherent hr hs htarget
  | unreadable hcall herror =>
    obtain ⟨weights, hok⟩ := hread _ hcall
    cases herror.symm.trans hok
  | @readable i now target weights hcall hok =>
    have hlength := (List.getElem?_eq_some_iff.mp hcall).1
    refine hs.beside rfl rfl rfl ?_ ?_
    · intro other p hmem
      rcases mem_replaceCall_of_mem hcall (some (.rollbackModel target (.restore weights))) hmem with
        heq | hkept
      · obtain ⟨rfl, -⟩ := Call.rollbackModel.inj heq
        exact ⟨_, List.mem_set hlength _⟩
      · exact ⟨p, hkept⟩
    · intro other p hmem
      have hreplaced : .rollbackModel other p ∈ replaceCall s.calls i
        (some (.rollbackModel target (.restore weights))) := hmem
      rcases mem_replaceCall hreplaced with hold | heq
      · exact ⟨p, hold⟩
      · obtain ⟨rfl, -⟩ := Call.rollbackModel.inj (Option.some.inj heq)
        exact ⟨_, List.mem_of_getElem? hcall⟩
  | restored hcall hfree => exact restored_coherent hs hcall hfree ha
  | rotated hrotated =>
    refine hs.beside rfl rfl rfl ?_ ?_
    · intro target p hmem
      exact ⟨p, List.mem_append_left _ hmem⟩
    · intro target p hmem
      exact ⟨p, (rollbacks_append (by simp) target p).mp hmem⟩
  | restart hrestart => exact restart_coherent hr hs hread hrestart

/-- With every checkpoint readable, store and buffer agree whenever nothing is in
progress, as long as nobody puts a version last that is no longer active. -/
theorem models_agree (d : Deployment F) (start : Start) (s : Server F)
    (h : Reaches (Process.step d) (fun s a => Readable d s a ∧ NewestLast s a) (initial d start) s)
    (hq : Quiet s) : ModelsAgree s := by
  have hall : StoreReached s ∧ Coherent s := by
    apply h.invariant (I := fun s => StoreReached s ∧ Coherent s)
    · exact ⟨initial_storeReached d start, initial_coherent d start⟩
    · intro s a s' hs ha hstep
      exact ⟨step_storeReached hs.1 hstep, step_coherent hs.1 hs.2 ha.1 ha.2 hstep⟩
  intro scope hscope
  rcases hall.2.latest scope hscope with hagree | ⟨target, p, hcall, -⟩ | ⟨c, job, p, hc, -⟩
  · exact hagree
  · rw [hq.2] at hcall
    cases hcall
  · rw [submitting_none hq.1] at hc
    cases hc

def readsCheckpoint (s : Server Binary32) : Action Binary32 → Bool
  | .call i _ => match s.calls[i]? with
    | some (.rollbackModel target .readCheckpoint) =>
      match readCheckpoint standardDeployment.primitives s.world target.checkpointPath with
      | .ok _ => true
      | .error _ => false
    | _ => true
  | .restart _ => false
  | _ => true

theorem readable_of_readsCheckpoint (s : Server Binary32) (a : Action Binary32)
    (h : readsCheckpoint s a = true) : Readable standardDeployment s a := by
  cases a with
  | call i now =>
    intro target hcall
    simp only [readsCheckpoint, hcall] at h
    split at h
    · rename_i weights hok
      exact ⟨weights, hok⟩
    · cases h
  | restart start => cases h
  | _ => trivial

def newestLast (s : Server Binary32) : Action Binary32 → Bool
  | .proceed _ => match s.federated with
    | some (.submitWeights q _ _ (.record _ _ _)) =>
      (modelScopes s).all (fun scope => scope == requestScope q)
    | some (.submitWeights q _ _ (.publish _ _ v)) => v == activeVersion s (requestScope q)
    | _ => true
  | .call i _ => match s.calls[i]? with
    | some (.rollbackModel target (.restore _)) =>
      target.version == activeVersion s (target.tenantId, target.modelId)
    | _ => true
  | _ => true

theorem newestLast_of_newestLast (s : Server Binary32) (a : Action Binary32)
    (h : newestLast s a = true) : NewestLast s a := by
  cases a with
  | proceed o =>
    intro c hc
    unfold newestLast at h
    rw [federated_of_submitting hc] at h
    split
    · rename_i hpoint
      rw [hpoint] at h
      intro scope hscope _
      exact beq_iff_eq.mp (List.all_eq_true.mp h scope hscope)
    · rename_i hpoint
      rw [hpoint] at h
      exact .inl (beq_iff_eq.mp h)
    · trivial
  | call i now =>
    intro target weights hcall
    simp only [newestLast, hcall] at h
    exact .inl (beq_iff_eq.mp h)
  | _ => trivial

def restoredTo (version : ℤ) : Action Binary32 := .rollbackModel ⟨"t", "m", version⟩ admin 2

/-- Two rounds, and a rollback to the first. -/
theorem models_agree_rolledBack : ∃ s : Server Binary32, Quiet s ∧
    s.world.store.models.map (·.version) = [1, 2] ∧ latestVersion s ("t", "m") = 1 ∧
    ModelsAgree s := by
  have htest : (execTested (Process.step standardDeployment)
      (fun s a => readsCheckpoint s a && newestLast s a) (twoClients ++ roundOn 1 0 ++
        roundOn 2 0 ++ [restoredTo 1, .call 0 3, .call 0 4])
      (initial standardDeployment firstStart)).any (fun s =>
        (s.federated.isNone && s.calls.isEmpty) &&
        (s.world.store.models.map (·.version) == [1, 2] && latestVersion s ("t", "m") == 1)) =
          true := by
    decide +kernel
  rw [Option.any_eq_true] at htest
  obtain ⟨s, hs, hresult⟩ := htest
  obtain ⟨hquiet, hversions⟩ := Bool.and_eq_true_iff.mp hresult
  rw [Bool.and_eq_true, beq_iff_eq, beq_iff_eq] at hversions
  have hok : ∀ (s : Server Binary32) a, (readsCheckpoint s a && newestLast s a) = true →
      Readable standardDeployment s a ∧ NewestLast s a := by
    intro s a h
    obtain ⟨hread, hnewest⟩ := Bool.and_eq_true_iff.mp h
    exact ⟨readable_of_readsCheckpoint s a hread, newestLast_of_newestLast s a hnewest⟩
  have hreaches := execTested_reaches _ hok _ hs
  have hq := quiet_of_isQuiet hquiet
  exact ⟨s, hq, hversions.1, hversions.2,
    models_agree standardDeployment firstStart s hreaches hq⟩

/-- Of two rollbacks the first puts its version last. -/
theorem rollbacks_overtake : ∃ s,
    Reaches (Process.step standardDeployment) (Readable standardDeployment)
      (initial standardDeployment firstStart) s ∧ Quiet s ∧ ¬ ModelsAgree s := by
  have htest : (execTested (Process.step standardDeployment) readsCheckpoint (twoClients ++
      roundOn 1 0 ++ roundOn 2 0 ++ [restoredTo 1, restoredTo 2, .call 1 3, .call 1 4, .call 0 5,
        .call 0 6]) (initial standardDeployment firstStart)).any (fun s =>
        (s.federated.isNone && s.calls.isEmpty) &&
        (modelScopes s == [("t", "m"), ("t", "m")] &&
          latestVersion s ("t", "m") != activeVersion s ("t", "m"))) = true := by
    decide +kernel
  rw [Option.any_eq_true] at htest
  obtain ⟨s, hs, hresult⟩ := htest
  obtain ⟨hquiet, hdiffer⟩ := Bool.and_eq_true_iff.mp hresult
  rw [Bool.and_eq_true, beq_iff_eq] at hdiffer
  refine ⟨s, execTested_reaches _ readable_of_readsCheckpoint _ hs, quiet_of_isQuiet hquiet, ?_⟩
  intro hagree
  apply bne_iff_ne.mp hdiffer.2
  apply hagree
  rw [hdiffer.1]
  exact List.mem_cons_self

end PqFl.ModelAgreement
