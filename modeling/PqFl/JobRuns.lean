import PqFl.JobSteps

/-!
# Jobs and leases over a run

What a step does to the store and to its image on disk, as far as jobs and
leases go, and the rule by which a property of stores is carried through a
run. Two properties hold of every run: the stores are orderly, and an active
job has not reached its target.
-/

set_option autoImplicit false

namespace PqFl.JobRuns
open PqFl.Identifiers PqFl.Timestamps PqFl.StoreRecords PqFl.StateStore PqFl.ClientRegistry
open PqFl.Crypto PqFl.Aggregation PqFl.Buffer PqFl.Services PqFl.Process PqFl.JobLedger
open PqFl.ListUpdate PqFl.JobSteps PqFl.Runs

variable {F : Type} {d : Deployment F} {s s' : Server F} {a : Action F}

inductive StoreStep (d : Deployment F) (s : Server F) : Action F → Server F → Prop
  | moved {a : Action F} {s' : Server F} (hmove : Move s.world.store s'.world.store)
      (hdisk : DiskFollows s s') : StoreStep d s a s'
  | created {q : CreateTrainingJobRequest} {peer : Peer} {now : ℕ} {s' : Server F}
      (hcreates : createsJob d s q peer = true)
      (hstore : s'.world.store = (createTrainingJob s.world.store (requestedJob q) now).store)
      (hdisk : s'.world.disk = s'.world.store) : StoreStep d s (.createTrainingJob q peer now) s'
  | advanced {o : Oracle F} {c : Submitting F} {job : PersistedTrainingJobRecord}
      {result : AggregationAttemptResult} {s' : Server F} (hc : submitting s = some c)
      (hpoint : c.point = .advance job result)
      (hstore : s'.world.store = (advanceTrainingJobRound s.world.store
        (normalizeTenant c.q.tenantId) (normalizeModel c.q.modelId) c.q.roundIndex
        result.modelVersion o.now).store)
      (hdisk : s'.world.disk = s'.world.store ∨
        (s'.world.disk = s.world.disk ∧ s'.world.store = s.world.store)) :
      StoreStep d s (.proceed o) s'
  | restarted {start : Start} {s' : Server F} (hmove : Move s.world.disk s'.world.store)
      (hjobs : s'.world.store.trainingJobs = s.world.disk.trainingJobs)
      (hdisk : jobRecords s'.world.disk = jobRecords s'.world.store) :
      StoreStep d s (.restart start) s'

theorem StoreStep.ofOutcome {α : Type} {o : Outcome α} (hmove : Move s.world.store o.store)
    (hjobs : o.store.trainingJobs = s.world.store.trainingJobs)
    (hworld : s'.world = s.world.after o) : StoreStep d s a s' := by
  apply StoreStep.moved
  · rw [hworld]
    exact hmove
  · rw [DiskFollows, hworld]
    cases hs : o.save with
    | true =>
      left
      simp [World.after, hs]
    | false =>
      right
      simp [World.after, hs, hjobs]

theorem StoreStep.silent (hstore : s'.world.store = s.world.store)
    (hdisk : s'.world.disk = s.world.disk) : StoreStep d s a s' :=
  .moved (.of_jobRecords (by rw [hstore])) (.inr ⟨hdisk, by rw [hstore]⟩)

theorem after_records {α : Type} {w : World F} {o : Outcome α}
    (h : jobRecords o.store = jobRecords w.store) (hw : jobRecords w.disk = jobRecords w.store) :
    jobRecords (w.after o).disk = jobRecords (w.after o).store := by
  unfold World.after
  dsimp only
  split
  · rfl
  · rw [hw, h]

theorem StoreStep.keeps {Q : StateStore → Prop} (h : StoreStep d s a s')
    (hmove : ∀ {x y : StateStore}, Q x → Move x y → Q y)
    (hcreate : ∀ q peer now, a = .createTrainingJob q peer now → createsJob d s q peer = true →
      Q s.world.store → Q (createTrainingJob s.world.store (requestedJob q) now).store)
    (hadvance : ∀ c job result now, submitting s = some c → c.point = .advance job result →
      Q s.world.store → Q (advanceTrainingJobRound s.world.store (normalizeTenant c.q.tenantId)
        (normalizeModel c.q.modelId) c.q.roundIndex result.modelVersion now).store)
    (hstore : Q s.world.store) (hdisk : Q s.world.disk) : Q s'.world.store ∧ Q s'.world.disk := by
  cases h with
  | moved hm hd =>
    have hstore' := hmove hstore hm
    rcases hd with hd | ⟨hd, -⟩
    · exact ⟨hstore', by rw [hd]; exact hstore'⟩
    · exact ⟨hstore', by rw [hd]; exact hdisk⟩
  | created hcreates hs hd =>
    have hstore' := hcreate _ _ _ rfl hcreates hstore
    rw [← hs] at hstore'
    exact ⟨hstore', by rw [hd]; exact hstore'⟩
  | @advanced o c job result _ hc hpoint hs hd =>
    have hstore' := hadvance c job result o.now hc hpoint hstore
    rw [← hs] at hstore'
    rcases hd with hd | ⟨hd, -⟩
    · exact ⟨hstore', by rw [hd]; exact hstore'⟩
    · exact ⟨hstore', by rw [hd]; exact hdisk⟩
  | restarted hm _ hd =>
    have hstore' := hmove hdisk hm
    exact ⟨hstore', hmove hstore' (.of_jobRecords hd)⟩

/-- An active job has rounds left. -/
def Unfinished (s : StateStore) : Prop := ∀ j ∈ s.trainingJobs,
  isActiveJobStatus j.status = true → 0 < j.targetRounds ∧ j.completedRounds < j.targetRounds

/-- The jobs on disk are those in memory, and both stores are in order. -/
structure InOrder (s : Server F) : Prop where
  store : Orderly s.world.store ∧ Unfinished s.world.store
  disk : Orderly s.world.disk ∧ Unfinished s.world.disk
  jobs : s.world.disk.trainingJobs = s.world.store.trainingJobs

theorem initial_inOrder (d : Deployment F) (start : Start) : InOrder (initial d start) where
  store := ⟨orderly_empty _, by simp [Unfinished, initial, emptyStore]⟩
  disk := ⟨orderly_empty _, by simp [Unfinished, initial, emptyStore]⟩
  jobs := rfl

variable [FloatArith F]

theorem proceedSubmit_storeStep {c : Submitting F} (hc : submitting s = some c) (o : Oracle F) :
    StoreStep d s (.proceed o) (proceedSubmit d s c.q c.peer c.serial o c.point) := by
  obtain ⟨q, peer, n, p⟩ := c
  cases p with
  | modelVersion => exact .silent rfl rfl
  | activeJob current =>
    apply StoreStep.silent
    · simp only [proceedSubmit, stepSubmitWeights]
      split <;> rfl
    · simp only [proceedSubmit, stepSubmitWeights]
      split <;> rfl
  | validate current job =>
    exact .ofOutcome (validate_move _ _ _ _ _ _ _ _ _) (validate_jobs _ _ _ _ _ _ _ _ _) rfl
  | roundCheck current job => exact .silent rfl rfl
  | duplicateCheck current job => exact .silent rfl rfl
  | decrypt job =>
    apply StoreStep.silent
    · simp only [proceedSubmit, stepSubmitWeights]
      split <;> rfl
    · simp only [proceedSubmit, stepSubmitWeights]
      split <;> rfl
  | updateClient job weights =>
    have hframe := (updateClientLastRound_frame s.world.store (normalizeTenant q.tenantId)
      (normalizeModel q.modelId) q.clientId q.roundIndex).1
    exact .ofOutcome (.of_jobRecords hframe) (congrArg Prod.fst hframe) rfl
  | recordSubmission job weights =>
    have hframe := (recordWeightSubmission_frame s.world.store (normalizeTenant q.tenantId)
      (normalizeModel q.modelId) q.clientId q.roundIndex o.now).1
    exact .ofOutcome (.of_jobRecords hframe) (congrArg Prod.fst hframe) rfl
  | add job weights => exact .silent rfl rfl
  | keyVersion job p => exact .silent rfl rfl
  | record job p keyVersion =>
    have hframe := (recordAggregatedModel_frame s.world.store (normalizeTenant q.tenantId)
      (normalizeModel q.modelId) q.roundIndex p.checkpointPath d.config.aggregationStrategy
      keyVersion p.clientCount p.result.length o.now).1
    exact .ofOutcome (.of_jobRecords hframe) (congrArg Prod.fst hframe) rfl
  | publish job p modelVersion => exact .silent rfl rfl
  | accept job result =>
    exact .ofOutcome (accept_move _ _ _ _ _ _ _ _ _) (accept_jobs _ _ _ _ _ _ _ _ _) rfl
  | advance job result =>
    refine .advanced hc rfl rfl ?_
    cases hjob : getActiveTrainingJob s.world.store (normalizeTenant q.tenantId)
      (normalizeModel q.modelId) with
    | none =>
      right
      simp [proceedSubmit, stepSubmitWeights, World.after, advanceTrainingJobRound, hjob]
    | some active =>
      left
      simp [proceedSubmit, stepSubmitWeights, World.after, advanceTrainingJobRound, hjob]
  | respond response countClients => exact .silent rfl rfl

theorem restart_records (P : Primitives) {start : Start} (h : restart P s start = some s') :
    s'.world.store.trainingJobs = (load s.world.disk start.now).store.trainingJobs ∧
    s'.world.store.assignments = (load s.world.disk start.now).store.assignments ∧
    jobRecords s'.world.disk = jobRecords s'.world.store := by
  obtain ⟨w, hw, rfl⟩ := Option.map_eq_some_iff.mp h
  obtain ⟨keys, -, rfl⟩ := Option.map_eq_some_iff.mp hw
  have hframe := (updateActiveKeyVersion_frame (load s.world.disk start.now).store
    keys.1.activeKeyVersion start.now).1
  obtain ⟨hjobs, hleases⟩ := Prod.mk.inj hframe
  exact ⟨hjobs, hleases, after_records hframe rfl⟩

theorem restart_storeStep {start : Start} (hdisk : Orderly s.world.disk)
    (h : restart d.primitives s start = some s') : StoreStep d s (.restart start) s' := by
  obtain ⟨hjobs, hleases, hsame⟩ := restart_records d.primitives h
  refine .restarted ?_ (hjobs.trans (load_records hdisk start.now).1) hsame
  exact (load_move hdisk start.now).of_same hjobs hleases

theorem step_storeStep (hdisk : Orderly s.world.disk) (h : step d s a = some s') :
    StoreStep d s a s' := by
  cases step_jobStep h with
  | moved hmove hdisk _ _ _ => exact .moved hmove hdisk
  | create hcreates => exact .created hcreates rfl rfl
  | submit _ => exact .silent rfl rfl
  | proceed hc => exact proceedSubmit_storeStep hc _
  | restart hrestart => exact restart_storeStep hdisk hrestart

theorem Unfinished.move {x y : StateStore} (h : Unfinished x) (hm : Move x y) : Unfinished y := by
  intro j' hj' hactive
  obtain ⟨j, hj, hk⟩ := forall₂_of_mem hm.jobs hj'
  rw [hk.targetRounds, hk.completedRounds]
  exact h j hj (hk.active hactive)

theorem Unfinished.create {x : StateStore} (h : Unfinished x) (record : PersistedTrainingJobRecord)
    (now : ℕ) (htarget : 0 < record.targetRounds) (hdone : record.completedRounds = 0) :
    Unfinished (createTrainingJob x record now).store := by
  intro j hj hactive
  rcases create_cases hj hactive with rfl | ⟨hj, -⟩
  · show 0 < record.targetRounds ∧ record.completedRounds < record.targetRounds
    rw [hdone]
    exact ⟨htarget, htarget⟩
  · exact h j hj hactive

theorem Unfinished.advance {x : StateStore} (h : Unfinished x) (t m : String) (r v : ℤ) (now : ℕ) :
    Unfinished (advanceTrainingJobRound x t m r v now).store := by
  cases hjob : getActiveTrainingJob x t m with
  | none =>
    rw [advance_none hjob]
    exact h
  | some job =>
    intro j' hj' hactive
    rcases advance_cases hjob hj' with hj | ⟨hjob', rfl⟩
    · exact h j' hj hactive
    · have hleft := h job hjob' (getActive_mem hjob).2.2.2
      unfold advanceJob at hactive ⊢
      dsimp only at hactive ⊢
      split at hactive
      · cases hactive
      · omega

theorem requestedJob_target (q : CreateTrainingJobRequest) : 0 < (requestedJob q).targetRounds := by
  show 0 < max 1 q.targetRounds
  omega

theorem step_inOrder (h : InOrder s) (hs : step d s a = some s') : InOrder s' := by
  have hstep := step_storeStep h.disk.1 hs
  have hkeeps := hstep.keeps (Q := fun x => Orderly x ∧ Unfinished x)
    (fun hx hm => ⟨hx.1.move hm, hx.2.move hm⟩)
    (fun q _ now _ _ hx => ⟨hx.1.create _ now, hx.2.create _ now (requestedJob_target q) rfl⟩)
    (fun _ _ _ _ _ _ hx => ⟨hx.1.advance _ _ _ _ _, hx.2.advance _ _ _ _ _⟩) h.store h.disk
  refine ⟨hkeeps.1, hkeeps.2, ?_⟩
  cases hstep with
  | moved _ hdisk =>
    rcases hdisk with hd | ⟨hd, hjobs⟩
    · rw [hd]
    · rw [hd, hjobs, h.jobs]
  | created _ _ hdisk => rw [hdisk]
  | advanced _ _ _ hdisk =>
    rcases hdisk with hd | ⟨hd, hstore⟩
    · rw [hd]
    · rw [hd, hstore, h.jobs]
  | restarted _ _ hdisk => exact congrArg Prod.fst hdisk

theorem run_inOrder {ok : Server F → Action F → Prop} {start : Start}
    (h : Reaches (step d) ok (initial d start) s) : InOrder s :=
  h.invariant (initial_inOrder d start) (fun _ _ _ hi _ hs => step_inOrder hi hs)

theorem active_of_move {x y : StateStore} (ho : Orderly x) (hm : Move x y) {t m : String}
    {j' : PersistedTrainingJobRecord} (h : getActiveTrainingJob y t m = some j') :
    ∃ j, getActiveTrainingJob x t m = some j ∧ JobKept j j' := by
  obtain ⟨hj', ht, hmodel, hactive⟩ := getActive_mem h
  obtain ⟨j, hj, hk⟩ := forall₂_of_mem hm.jobs hj'
  refine ⟨j, ho.active_unique hj ?_, hk⟩
  exact hk.isActiveJobOf (isActiveJobOf_iff.mpr ⟨ht, hmodel, hactive⟩)

theorem active_move {x y : StateStore} (hx : Orderly x ∧ Unfinished x) (hm : Move x y)
    {t m : String} {j : PersistedTrainingJobRecord} (h : getActiveTrainingJob x t m = some j) :
    ∃ j', getActiveTrainingJob y t m = some j' ∧ JobKept j j' := by
  obtain ⟨hj, ht, hmodel, hactive⟩ := getActive_mem h
  obtain ⟨j', hj', hk⟩ := forall₂_of_mem_left hm.jobs hj
  have hleft := hx.2 j hj hactive
  have hactive' : isActiveJobStatus j'.status = true :=
    (hk.stays hactive).resolve_right (by omega)
  refine ⟨j', (hx.1.move hm).active_unique hj' ?_, hk⟩
  exact isActiveJobOf_iff.mpr ⟨hk.tenantId.trans ht, hk.modelId.trans hmodel, hactive'⟩

theorem active_create {x : StateStore} (ho : Orderly x) (record : PersistedTrainingJobRecord)
    (now : ℕ) {t m : String} (hne : ¬ (normalizeTenant t = normalizeTenant record.tenantId ∧
      normalizeModel m = normalizeModel record.modelId)) :
    getActiveTrainingJob (createTrainingJob x record now).store t m =
      getActiveTrainingJob x t m := by
  have hnew := ho.create record now
  cases h : getActiveTrainingJob x t m with
  | none =>
    cases h' : getActiveTrainingJob (createTrainingJob x record now).store t m with
    | none => rfl
    | some j =>
      obtain ⟨hj, ht, hm, hactive⟩ := getActive_mem h'
      rcases create_cases hj hactive with rfl | ⟨hj, -⟩
      · exact absurd ⟨ht.symm, hm.symm⟩ hne
      · have hsome := ho.active_unique hj (isActiveJobOf_iff.mpr ⟨ht, hm, hactive⟩)
        rw [h] at hsome
        cases hsome
  | some j =>
    obtain ⟨hj, ht, hm, hactive⟩ := getActive_mem h
    apply hnew.active_unique _ (isActiveJobOf_iff.mpr ⟨ht, hm, hactive⟩)
    rw [(create_jobs x record now).1]
    refine List.mem_append_left _ (List.mem_map.mpr ⟨j, hj, ?_⟩)
    unfold supersede
    rw [if_neg]
    rw [isActiveJobOf_iff, ht, hm]
    exact fun hof => hne ⟨hof.1, hof.2.1⟩

theorem active_created {x : StateStore} (ho : Orderly x) (record : PersistedTrainingJobRecord)
    (now : ℕ) (hactive : isActiveJobStatus record.status = true) :
    getActiveTrainingJob (createTrainingJob x record now).store record.tenantId record.modelId =
      some (createTrainingJob x record now).value := by
  apply (ho.create record now).active_unique
  · rw [(create_jobs x record now).1]
    exact List.mem_append_right _ (List.mem_singleton.mpr rfl)
  · exact isActiveJobOf_iff.mpr ⟨rfl, rfl, hactive⟩

end PqFl.JobRuns
