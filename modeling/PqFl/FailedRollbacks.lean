import PqFl.ActiveVersions
import PqFl.Configuration
import PqFl.ServerSteps

/-!
# Rollbacks that fail

The handler switches the active version in the store first, and only then reads,
decrypts and converts the checkpoint. When one of these fails it answers without
switching back.
-/

set_option autoImplicit false

namespace PqFl.FailedRollbacks
open PqFl.Identifiers PqFl.StoreRecords PqFl.StateStore PqFl.ListUpdate PqFl.Crypto PqFl.Buffer
open PqFl.Aggregation PqFl.Services PqFl.Process PqFl.ModelVersions PqFl.ActiveVersions PqFl.Runs
open PqFl.Configuration PqFl.Floats

variable {F : Type} [FloatArith F]

/-- `RollbackModel` of the admin service after the checks of the request, from the
first call of the store to the answer. -/
def serveRollbackModel (P : Primitives) (w : World F) (q : RollbackModelRequest) (now : ℕ) :
    World F × RollbackModelResponse :=
  let rolled := rollbackModel w.store q.tenantId q.modelId q.targetVersion now
  let w := w.after rolled
  match rolled.value with
  | none => (w, { success := false, message := "Requested model version not found" })
  | some target =>
    match readCheckpoint P w target.checkpointPath with
    | .error what => (w, { success := false, message := what })
    | .ok weights =>
      ({ w with
          buffer := restoreLatestGlobalModel w.buffer target.tenantId target.modelId
            target.latestRound target.version weights },
        { success := true
          message := "Rollback activated model version " ++ toString target.version
          activeModel := some target })

theorem serveRollbackModel_steps {d : Deployment F} {s : Server F} {q : RollbackModelRequest}
    {peer : Peer} (hpeer : isAuthorizedAdmin d peer = true) (hq : checkRollbackModel q = "")
    (hfree : bufferLocked s = false) (now : ℕ) :
    ∃ n s', exec (Process.step d) (.rollbackModel q peer now ::
        List.replicate n (.call s.calls.length now)) s = some s' ∧
      s'.world = (serveRollbackModel d.primitives s.world q now).1 ∧ s'.calls = s.calls := by
  have hstart : Process.step d s (.rollbackModel q peer now) =
      some (startRollbackModel d s q peer now) := rfl
  unfold startRollbackModel at hstart
  rw [if_neg (by simp [hpeer, hq])] at hstart
  unfold serveRollbackModel
  dsimp only at hstart ⊢
  generalize hrolled : rollbackModel s.world.store q.tenantId q.modelId q.targetVersion now = rolled
    at hstart ⊢
  generalize s.world.after rolled = w at hstart ⊢
  -- the server after each of its calls
  let at_ (w : World F) (history : List (Event F)) (call : Option (Call F)) : Server F :=
    { s with
      world := w
      calls := s.calls ++ call.toList
      history := history }
  have hnext : ∀ (w : World F) (history : List (Event F)) (call : Call F)
      (next : World F × Option (Call F) × List (Event F)),
      stepCall d (at_ w history (some call)) now call = some next →
      Process.step d (at_ w history (some call)) (.call s.calls.length now) =
        some (at_ next.1 (history ++ next.2.2) next.2.1) := by
    intro w history call next h
    exact step_lastCall (s := at_ w history (some call)) rfl h
  cases hvalue : rolled.value with
  | none =>
    have hmissed : Process.step d s (.rollbackModel q peer now) = some (at_ w s.history none) := by
      rw [hstart, hvalue]
      rfl
    refine ⟨0, at_ w s.history none, ?_, rfl, List.append_nil _⟩
    simp only [List.replicate, exec, hmissed, Option.bind_some]
  | some target =>
    have hstarted : Process.step d s (.rollbackModel q peer now) =
        some (at_ w s.history (some (.rollbackModel target .readCheckpoint))) := by
      rw [hstart, hvalue]
      rfl
    cases hread : readCheckpoint d.primitives w target.checkpointPath with
    | error what =>
      have hfailed := hnext w s.history (.rollbackModel target .readCheckpoint) (w, none, [])
        (by simp only [stepCall, at_, hread])
      refine ⟨1, at_ w (s.history ++ []) none, ?_, ?_, List.append_nil _⟩
      · simp only [List.replicate, exec, hstarted, hfailed, Option.bind_some]
      · simp only [hread]
        rfl
    | ok weights =>
      let restored : World F := { w with
        buffer := restoreLatestGlobalModel w.buffer target.tenantId target.modelId
          target.latestRound target.version weights }
      let event : Event F := .restored target.tenantId target.modelId target.version weights
      have hready := hnext w s.history (.rollbackModel target .readCheckpoint)
        (w, some (.rollbackModel target (.restore weights)), [])
        (by simp only [stepCall, at_, hread])
      have hunlocked : bufferLocked (at_ w (s.history ++ [])
          (some (.rollbackModel target (.restore weights)))) = false := hfree
      have hrestored := hnext w (s.history ++ []) (.rollbackModel target (.restore weights))
        (restored, none, [event])
        (by
          simp only [stepCall, hunlocked, Bool.false_eq_true, if_false]
          rfl)
      refine ⟨2, at_ restored (s.history ++ [] ++ [event]) none, ?_, ?_, List.append_nil _⟩
      · simp only [List.replicate, exec, hstarted, hready, hrestored, Option.bind_some]
      · simp only [hread]
        rfl

structure Unchanged (w w' : World F) : Prop where
  active : ∀ t m, getActiveModelVersion w'.store t m = getActiveModelVersion w.store t m
  latest : w'.buffer.latestModels = w.buffer.latestModels

theorem rollback_found_iff (s : StateStore) (t m : String) (v : ℤ) (now : ℕ) :
    (rollbackModel s t m v now).value.isSome = true ↔ ∃ x ∈ modelsOf s t m, x.version = v := by
  constructor
  · intro h
    by_contra habsent
    have hnone := rollback_absent (s := s) (t := t) (m := m) (v := v) (fun hmem =>
      habsent (List.mem_map.mp hmem)) now
    rw [hnone] at h
    cases h
  · rintro ⟨x, hx, hversion⟩
    obtain ⟨hmem, hof⟩ := List.mem_filter.mp hx
    unfold rollbackModel
    dsimp only
    cases hfound : s.models.find? (isVersionOf (normalizeTenant t) (normalizeModel m) v) with
    | none =>
      have hnot := List.find?_eq_none.mp hfound x hmem
      simp [isVersionOf, hof, hversion] at hnot
    | some target => rfl

theorem switched_active {l : List PersistedModelRecord} {v : ℤ} (h : ∃ x ∈ l, x.version = v) :
    (((updateFirst (fun x => x.version == v) activated (l.map deactivated)).filter
      (·.active)).head?).map (·.version) = some v := by
  induction l with
  | nil =>
    obtain ⟨x, hx, -⟩ := h
    cases hx
  | cons y ys ih =>
    rw [List.map_cons, updateFirst]
    by_cases hy : y.version = v
    · have hwanted : ((deactivated y).version == v) = true := beq_iff_eq.mpr hy
      rw [if_pos hwanted, List.filter_cons_of_pos rfl]
      exact congrArg some hy
    · have hother : ¬ ((deactivated y).version == v) = true := fun h => hy (beq_iff_eq.mp h)
      rw [if_neg hother, List.filter_cons_of_neg (by simp [deactivated])]
      apply ih
      obtain ⟨x, hx, hversion⟩ := h
      rcases List.mem_cons.mp hx with rfl | hmem
      · exact absurd hversion hy
      · exact ⟨x, hmem, hversion⟩

theorem rollback_switches {s : StateStore} {t m : String} {v : ℤ} {now : ℕ}
    (h : (rollbackModel s t m v now).value.isSome = true) :
    getActiveModelVersion (rollbackModel s t m v now).store t m = v := by
  have hmodels := rollback_modelsOf s t m v now t m
  rw [if_pos ⟨⟨rfl, rfl⟩, h⟩] at hmodels
  rw [getActiveModelVersion_eq, getActiveModelRecord_eq, hmodels,
    switched_active ((rollback_found_iff s t m v now).mp h)]
  rfl

theorem rollback_leaves_others {s : StateStore} {t m t' m' : String} {v : ℤ} {now : ℕ}
    (h : ¬ (normalizeTenant t' = normalizeTenant t ∧ normalizeModel m' = normalizeModel m)) :
    getActiveModelVersion (rollbackModel s t m v now).store t' m' =
      getActiveModelVersion s t' m' := by
  apply activeVersion_of_modelsOf
  rw [rollback_modelsOf, if_neg (fun hboth => h hboth.1)]

theorem activeVersion_normalize {s : StateStore} {t m t' m' : String}
    (h : normalizeTenant t' = normalizeTenant t ∧ normalizeModel m' = normalizeModel m) :
    getActiveModelVersion s t' m' = getActiveModelVersion s t m := by
  unfold getActiveModelVersion getActiveModelRecord
  rw [h.1, h.2]

theorem rollback_unchanged_iff (s : StateStore) (t m : String) (v : ℤ) (now : ℕ) :
    (∀ t' m', getActiveModelVersion (rollbackModel s t m v now).store t' m' =
      getActiveModelVersion s t' m') ↔
    (¬ ∃ x ∈ modelsOf s t m, x.version = v) ∨ getActiveModelVersion s t m = v := by
  rw [← rollback_found_iff s t m v now]
  by_cases hfound : (rollbackModel s t m v now).value.isSome = true
  · constructor
    · intro h
      right
      rw [← h t m]
      exact rollback_switches hfound
    · rintro (habsent | hactive) t' m'
      · exact absurd hfound habsent
      · by_cases hscope : normalizeTenant t' = normalizeTenant t ∧
            normalizeModel m' = normalizeModel m
        · rw [activeVersion_normalize hscope, activeVersion_normalize hscope, hactive]
          exact rollback_switches hfound
        · exact rollback_leaves_others hscope
  · constructor
    · intro _
      exact .inl hfound
    · intro _ t' m'
      apply activeVersion_of_modelsOf
      rw [rollback_modelsOf, if_neg (fun hboth => hfound hboth.2)]

theorem serve_failed {P : Primitives} {w : World F} {q : RollbackModelRequest} {now : ℕ}
    (h : (serveRollbackModel P w q now).2.success = false) :
    (serveRollbackModel P w q now).1 =
      w.after (rollbackModel w.store q.tenantId q.modelId q.targetVersion now) := by
  unfold serveRollbackModel at h ⊢
  dsimp only at h ⊢
  cases hvalue : (rollbackModel w.store q.tenantId q.modelId q.targetVersion now).value with
  | none => rfl
  | some target =>
    simp only [hvalue] at h ⊢
    cases hread : readCheckpoint P (w.after (rollbackModel w.store q.tenantId q.modelId
        q.targetVersion now)) target.checkpointPath with
    | error what => rfl
    | ok weights =>
      rw [hread] at h
      cases h

/-- A rollback that fails changes nothing exactly when the scope has no such version or
when this version is the active one already. -/
theorem failed_rollback_unchanged (P : Primitives) (w : World F) (q : RollbackModelRequest)
    (now : ℕ) (h : (serveRollbackModel P w q now).2.success = false) :
    Unchanged w (serveRollbackModel P w q now).1 ↔
      (¬ ∃ x ∈ modelsOf w.store q.tenantId q.modelId, x.version = q.targetVersion) ∨
        getActiveModelVersion w.store q.tenantId q.modelId = q.targetVersion := by
  rw [serve_failed h, ← rollback_unchanged_iff w.store q.tenantId q.modelId q.targetVersion now]
  constructor
  · exact fun hunchanged => hunchanged.active
  · exact fun hactive => ⟨hactive, rfl⟩

def fullDisk (now : ℕ) : Oracle Binary32 :=
  ⟨now, ⟨fun _ => Arith.ofInt 0, fun _ => Arith.ofInt 0, Block.read 12 [], .shortWrite⟩⟩

/-- Two rounds, a restart, and the first round once more: its checkpoint is removed
when the new one cannot be written. -/
def lostCheckpoint : List (Action Binary32) :=
  twoClients ++ roundOn 1 0 ++ roundOn 2 1 ++ [.restart firstStart] ++ basedOn "a" 1 2 9 ++
    .submitWeights { zeroSubmission "b" 1 "" "" with baseModelVersion := 2 } site ::
      List.replicate 9 (.proceed (fullDisk 1))

/-- The rollback to the first version fails and makes it the active one. Requested once
more it fails again, and then it changes nothing. -/
theorem failed_rollback_unchanged_again : ∃ s, Reaches (Process.step standardDeployment) Free
      (initial standardDeployment firstStart) s ∧
    getActiveModelVersion (serveRollbackModel standInPrimitives s.world ⟨"t", "m", 1⟩
      2).1.store "t" "m" = 1 ∧
    Unchanged (serveRollbackModel standInPrimitives s.world ⟨"t", "m", 1⟩ 2).1
      (serveRollbackModel standInPrimitives
        (serveRollbackModel standInPrimitives s.world ⟨"t", "m", 1⟩ 2).1 ⟨"t", "m", 1⟩ 3).1 := by
  have htest : (exec (Process.step standardDeployment) lostCheckpoint
      (initial standardDeployment firstStart)).any (fun s =>
        let first := serveRollbackModel standInPrimitives s.world ⟨"t", "m", 1⟩ 2
        getActiveModelVersion first.1.store "t" "m" == 1 &&
          !(serveRollbackModel standInPrimitives first.1 ⟨"t", "m", 1⟩ 3).2.success) = true := by
    decide +kernel
  rw [Option.any_eq_true] at htest
  obtain ⟨s, hs, hfacts⟩ := htest
  simp only [Bool.and_eq_true, beq_iff_eq, Bool.not_eq_true'] at hfacts
  obtain ⟨hactive, hfails⟩ := hfacts
  exact ⟨s, exec_reaches _ hs, hactive,
    (failed_rollback_unchanged standInPrimitives _ ⟨"t", "m", 1⟩ 3 hfails).mpr (.inr hactive)⟩

/-- The rollback to the first version fails, but the version is active afterwards, while
the buffer still serves the second one. -/
theorem failed_rollback_switches : ∃ s, Reaches (Process.step standardDeployment) Free
      (initial standardDeployment firstStart) s ∧
    (serveRollbackModel standInPrimitives s.world ⟨"t", "m", 1⟩ 2).2 =
      { success := false, message := "Checkpoint file not found for requested rollback" } ∧
    getActiveModelVersion s.world.store "t" "m" = 2 ∧
    getActiveModelVersion (serveRollbackModel standInPrimitives s.world ⟨"t", "m", 1⟩
      2).1.store "t" "m" = 1 ∧
    (getLatestGlobalModel (serveRollbackModel standInPrimitives s.world ⟨"t", "m", 1⟩
      2).1.buffer "t" "m").modelVersion = 2 ∧
    ¬ Unchanged s.world (serveRollbackModel standInPrimitives s.world ⟨"t", "m", 1⟩ 2).1 := by
  have htest : (exec (Process.step standardDeployment) lostCheckpoint
      (initial standardDeployment firstStart)).any (fun s =>
        let served := serveRollbackModel standInPrimitives s.world ⟨"t", "m", 1⟩ 2
        decide (served.2 =
          { success := false, message := "Checkpoint file not found for requested rollback" }) &&
        (getActiveModelVersion s.world.store "t" "m" == 2 &&
          (getActiveModelVersion served.1.store "t" "m" == 1 &&
            (getLatestGlobalModel served.1.buffer "t" "m").modelVersion == 2))) = true := by
    decide +kernel
  rw [Option.any_eq_true] at htest
  obtain ⟨s, hs, hfacts⟩ := htest
  simp only [Bool.and_eq_true, decide_eq_true_eq, beq_iff_eq] at hfacts
  obtain ⟨hanswer, hbefore, hafter, hlatest⟩ := hfacts
  refine ⟨s, exec_reaches _ hs, hanswer, hbefore, hafter, hlatest, ?_⟩
  intro hunchanged
  have hactive := hunchanged.active "t" "m"
  rw [hbefore, hafter] at hactive
  exact absurd hactive (by decide)

end PqFl.FailedRollbacks
