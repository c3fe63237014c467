import PqFl.RoundCompletion

/-!
# Rejected aggregation attempts

A refused submission is taken out of its round again, but the velocity which
server momentum computed with it stays. Where the checkpoint cannot be written,
the retry starts from that velocity and comes to another aggregate.
-/

set_option autoImplicit false

namespace PqFl.RejectedAttempts
open PqFl.Identifiers PqFl.Crypto PqFl.Aggregation PqFl.StoreRecords PqFl.Buffer PqFl.Floats
open PqFl.NestedMaps PqFl.ThresholdRounds PqFl.RoundCompletion PqFl.Configuration

section
variable {F : Type}

/-- A submission and its size are kept together, and no round without a client. -/
structure Consistent (b : WeightBuffer F) : Prop where
  weights : Occupied b.roundWeights
  sizes : Occupied b.roundDatasetSizes
  clients : ∀ key c, c ∈ innerMap b.roundWeights key ↔ c ∈ innerMap b.roundDatasetSizes key

theorem Consistent.congr {b b' : WeightBuffer F} (h : Consistent b)
    (hweights : b'.roundWeights = b.roundWeights)
    (hsizes : b'.roundDatasetSizes = b.roundDatasetSizes) : Consistent b' where
  weights := hweights ▸ h.weights
  sizes := hsizes ▸ h.sizes
  clients := hweights ▸ hsizes ▸ h.clients

theorem Consistent.removed {b : WeightBuffer F} (h : Consistent b) (key clientId : String) :
    Consistent (removeSubmissionLocked b key clientId) := by
  rw [removeSubmissionLocked_eq]
  refine ⟨h.weights.eraseAt _ _, h.sizes.eraseAt _ _, ?_⟩
  intro key' c
  simp only [innerMap_eraseAt]
  by_cases hkey : key' = key
  · rw [if_pos hkey, if_pos hkey, AList.mem_erase, AList.mem_erase, h.clients]
  · rw [if_neg hkey, if_neg hkey, h.clients]

variable [FloatArith F]

/-- The buffers that the methods of the class come to. -/
inductive Grown : WeightBuffer F → Prop
  | empty : Grown emptyBuffer
  | added {b : WeightBuffer F} (h : Grown b) (P : Primitives) (cfg : AggregationConfig F)
      (e : CryptoEngine) (files : CheckpointFiles) (store : StateStore) (q : Submission F)
      (draw : Draw F) (now : ℕ) :
      Grown (addWeightAndCheckAggregate P cfg e files store b q draw now).1
  | restored {b : WeightBuffer F} (h : Grown b) (t m : String) (r v : ℤ) (weights : List F) :
      Grown (restoreLatestGlobalModel b t m r v weights)

structure SameMaps (b b' : WeightBuffer F) : Prop where
  weights : ∀ key, b'.roundWeights.lookup key = b.roundWeights.lookup key
  sizes : ∀ key, b'.roundDatasetSizes.lookup key = b.roundDatasetSizes.lookup key
  completed : b'.completedRounds = b.completedRounds
  latest : ∀ scope, b'.latestModels.lookup scope = b.latestModels.lookup scope
  velocity : ∀ scope, b'.optimizerVelocity.lookup scope = b.optimizerVelocity.lookup scope

/-- Whatever is submitted next, the aggregate computed with it is the same. -/
def SameRetries (b b' : WeightBuffer F) : Prop :=
  ∀ (cfg : AggregationConfig F) (q : Submission F) (noise overflow : ℕ → F),
    (computeAggregate (insertSubmission b' cfg.clipNorm q) cfg q noise overflow).2 =
      (computeAggregate (insertSubmission b cfg.clipNorm q) cfg q noise overflow).2

def attempted (b : WeightBuffer F) (cfg : AggregationConfig F) (q : Submission F) : WeightMap F :=
  submissions (insertSubmission b cfg.clipNorm q) (roundKey q.tenantId q.modelId q.round)

/-- What they are aggregated to, before momentum and noise. -/
def plainAggregate (b : WeightBuffer F) (cfg : AggregationConfig F) (q : Submission F)
    (overflow : ℕ → F) : List F :=
  aggregate overflow cfg.aggregationStrategy cfg.trimmedMeanBeta (attempted b cfg q)
    (datasetSizes (insertSubmission b cfg.clipNorm q) (roundKey q.tenantId q.modelId q.round))

/-- Momentum is off, there is no latest model of the submission's dimension, or
the velocity of the scope is one that a momentum step keeps. -/
def SettledVelocity (b : WeightBuffer F) (cfg : AggregationConfig F) (q : Submission F)
    (overflow : ℕ → F) : Prop :=
  ∀ latest, b.latestModels.lookup (scopeKey q.tenantId q.modelId) = some latest →
    latest.weights.length = q.weights.length → isPositive cfg.serverMomentum = true →
    ∃ v, b.optimizerVelocity.lookup (scopeKey q.tenantId q.modelId) = some v ∧
      v.length = q.weights.length ∧
      List.zipWith (fun x delta => cfg.serverMomentum * x + delta) v
        (List.zipWith (· - ·) (plainAggregate b cfg q overflow) latest.weights) = v

inductive Attempted (cfg : AggregationConfig F) (b : WeightBuffer F) (q : Submission F)
    (noise overflow : ℕ → F) : WeightBuffer F → Bool → Prop
  | late (hlate : roundKey q.tenantId q.modelId q.round ∈ b.completedRounds) :
      Attempted cfg b q noise overflow b false
  | waiting (hopen : roundKey q.tenantId q.modelId q.round ∉ b.completedRounds) :
      Attempted cfg b q noise overflow (insertSubmission b cfg.clipNorm q) true
  | invalid (hopen : roundKey q.tenantId q.modelId q.round ∉ b.completedRounds)
      (hinvalid : validateWeights (attempted b cfg q) ≠ "") :
      Attempted cfg b q noise overflow (removeSubmissionLocked (insertSubmission b cfg.clipNorm q)
        (roundKey q.tenantId q.modelId q.round) q.clientId) false
  | unwritten (hopen : roundKey q.tenantId q.modelId q.round ∉ b.completedRounds)
      (hvalid : validateWeights (attempted b cfg q) = "") :
      Attempted cfg b q noise overflow (removeSubmissionLocked
        (computeAggregate (insertSubmission b cfg.clipNorm q) cfg q noise overflow).1
        (roundKey q.tenantId q.modelId q.round) q.clientId) false
  | aggregated (hopen : roundKey q.tenantId q.modelId q.round ∉ b.completedRounds)
      (result : List F) (version : ℤ) :
      Attempted cfg b q noise overflow (publish
        (computeAggregate (insertSubmission b cfg.clipNorm q) cfg q noise overflow).1 q result
          version).1 true

theorem attempt_cases (P : Primitives) (cfg : AggregationConfig F) (e : CryptoEngine)
    (files : CheckpointFiles) (store : StateStore) (b : WeightBuffer F) (q : Submission F)
    (draw : Draw F) (now : ℕ) :
    Attempted cfg b q draw.noise draw.overflow
      (addWeightAndCheckAggregate P cfg e files store b q draw now).1
      (addWeightAndCheckAggregate P cfg e files store b q draw now).2.2.2.accepted := by
  unfold addWeightAndCheckAggregate addWeight
  simp only
  by_cases hlate : roundKey q.tenantId q.modelId q.round ∈ b.completedRounds
  · simp only [hlate, if_true]
    exact .late hlate
  simp only [hlate, if_false]
  by_cases hfew : (submissions (insertSubmission b cfg.clipNorm q)
      (roundKey q.tenantId q.modelId q.round)).entries.length < max 1 q.requiredClients
  · simp only [hfew, if_true]
    exact .waiting hlate
  simp only [hfew, if_false]
  by_cases hvalid : validateWeights (submissions (insertSubmission b cfg.clipNorm q)
      (roundKey q.tenantId q.modelId q.round)) = ""
  · simp only [hvalid, ne_eq, not_true_eq_false, if_false]
    unfold persist
    cases draw.persistence with
    | written => exact .aggregated hlate _ _
    | cannotOpen => exact .unwritten hlate hvalid
    | shortWrite => exact .unwritten hlate hvalid
    | threw what => exact .unwritten hlate hvalid
  · simp only [hvalid, ne_eq, not_false_eq_true, if_true]
    exact .invalid hlate hvalid

theorem Consistent.inserted {b : WeightBuffer F} (h : Consistent b) (clipNorm : F)
    (q : Submission F) : Consistent (insertSubmission b clipNorm q) := by
  rw [insertSubmission_eq]
  refine ⟨h.weights.insertAt _ _ _, h.sizes.insertAt _ _ _, ?_⟩
  intro key c
  simp only [innerMap_insertAt]
  by_cases hkey : key = roundKey q.tenantId q.modelId q.round
  · rw [if_pos hkey, if_pos hkey, AList.mem_insert, AList.mem_insert, h.clients]
  · rw [if_neg hkey, if_neg hkey, h.clients]

theorem Consistent.computed {b : WeightBuffer F} (h : Consistent b) (cfg : AggregationConfig F)
    (q : Submission F) (noise overflow : ℕ → F) :
    Consistent (computeAggregate (insertSubmission b cfg.clipNorm q) cfg q noise overflow).1 := by
  obtain ⟨velocity, hvelocity⟩ := computeAggregate_velocity
    (insertSubmission b cfg.clipNorm q) cfg q noise overflow
  rw [hvelocity]
  exact (h.inserted cfg.clipNorm q).congr rfl rfl

theorem Consistent.attempted {cfg : AggregationConfig F} {b b' : WeightBuffer F}
    {q : Submission F} {noise overflow : ℕ → F} {accepted : Bool} (h : Consistent b)
    (hattempt : Attempted cfg b q noise overflow b' accepted) : Consistent b' := by
  cases hattempt with
  | late _ => exact h
  | waiting _ => exact h.inserted _ _
  | invalid _ _ => exact (h.inserted _ _).removed _ _
  | unwritten _ _ => exact (h.computed cfg q noise overflow).removed _ _
  | aggregated _ result version => exact (h.computed cfg q noise overflow).congr rfl rfl

theorem Grown.consistent {b : WeightBuffer F} (h : Grown b) : Consistent b := by
  induction h with
  | empty => exact ⟨occupied_empty, occupied_empty, fun _ _ => Iff.rfl⟩
  | added _ P cfg e files store q draw now ih =>
    exact ih.attempted (attempt_cases P cfg e files store _ q draw now)
  | restored _ t m r v weights ih => exact ih.congr rfl rfl

/-- The rollback undoes the insertion; the maps are the same if and only if the
velocities are. -/
theorem sameMaps_rolledBack {b : WeightBuffer F} {q : Submission F} (h : Consistent b)
    (hnone : q.clientId ∉ submissions b (roundKey q.tenantId q.modelId q.round)) (clipNorm : F)
    (velocity : AList (fun _ : String => List F)) :
    SameMaps b (removeSubmissionLocked
        { insertSubmission b clipNorm q with optimizerVelocity := velocity }
        (roundKey q.tenantId q.modelId q.round) q.clientId) ↔
      ∀ scope, velocity.lookup scope = b.optimizerVelocity.lookup scope := by
  rw [removeSubmissionLocked_eq, insertSubmission_eq]
  constructor
  · exact fun hsame => hsame.velocity
  · intro hvelocity
    exact {
      weights := h.weights.lookup_eraseAt_insertAt hnone _
      sizes := h.sizes.lookup_eraseAt_insertAt (fun hsize => hnone ((h.clients _ _).mpr hsize)) _
      completed := rfl
      latest := fun _ => rfl
      velocity := hvelocity }

theorem plainAggregate_length {b : WeightBuffer F} {cfg : AggregationConfig F} {q : Submission F}
    (hvalid : validateWeights (attempted b cfg q) = "") (overflow : ℕ → F) :
    (plainAggregate b cfg q overflow).length = q.weights.length ∧ q.weights.length ≠ 0 := by
  have hown : (⟨q.clientId, clipWeights q.weights cfg.clipNorm⟩ : (_ : String) × List F) ∈
      (attempted b cfg q).entries := by
    rw [attempted, submissions_insertSubmission, if_pos rfl]
    exact List.mem_cons_self
  have hne : (attempted b cfg q).entries ≠ [] := List.ne_nil_of_mem hown
  obtain ⟨n, hall⟩ := (validateWeights_iff hne).mp hvalid
  have hentries : ∀ entry ∈ (attempted b cfg q).entries, entry.2.length = n :=
    fun entry hentry => (wellFormed_iff.mp (hall _ (List.mem_map_of_mem hentry))).2.1
  have hlength := aggregate_length hne hentries overflow cfg.aggregationStrategy cfg.trimmedMeanBeta
    (datasetSizes (insertSubmission b cfg.clipNorm q) (roundKey q.tenantId q.modelId q.round))
  have hpositive := (wellFormed_iff.mp (hall _ (List.mem_map_of_mem hown))).1
  have hclipped := hentries _ hown
  rw [clipWeights_length] at hclipped
  rw [hclipped]
  exact ⟨hlength, hpositive⟩

/-- A momentum step of the stored velocity is stored again if and only if it
keeps the velocity. -/
theorem momentum_keeps_iff (momentum : F) (stored : Option (List F)) {latest result : List F}
    (hlatest : latest.length = result.length) :
    stored = some (applyMomentum momentum (stored.getD []) latest result).1 ↔
      ∃ v, stored = some v ∧ v.length = result.length ∧
        List.zipWith (fun x delta => momentum * x + delta) v
          (List.zipWith (· - ·) result latest) = v := by
  unfold applyMomentum
  constructor
  · intro hkeeps
    cases stored with
    | none => cases hkeeps
    | some v =>
      rw [Option.getD_some, Option.some.injEq] at hkeeps
      by_cases hlength : v.length = result.length
      · rw [if_pos hlength] at hkeeps
        exact ⟨v, rfl, hlength, hkeeps.symm⟩
      · have hreset := congrArg List.length hkeeps
        rw [if_neg hlength, List.length_zipWith, List.length_zipWith, List.length_replicate]
          at hreset
        omega
  · rintro ⟨v, rfl, hlength, hkeeps⟩
    simp only [Option.getD_some, if_pos hlength]
    rw [hkeeps]

/-- The velocity that a validated round leaves is the old one if and only if it
was settled. -/
theorem computed_velocity {b : WeightBuffer F} {cfg : AggregationConfig F} {q : Submission F}
    (hvalid : validateWeights (attempted b cfg q) = "") (noise overflow : ℕ → F) : ∃ velocity,
      (computeAggregate (insertSubmission b cfg.clipNorm q) cfg q noise overflow).1 =
        { insertSubmission b cfg.clipNorm q with optimizerVelocity := velocity } ∧
      ((∀ scope, velocity.lookup scope = b.optimizerVelocity.lookup scope) ↔
        SettledVelocity b cfg q overflow) := by
  obtain ⟨hlength, hpositive⟩ := plainAggregate_length hvalid overflow
  show ∃ velocity, (smooth (insertSubmission b cfg.clipNorm q) cfg.serverMomentum
    (scopeKey q.tenantId q.modelId) (plainAggregate b cfg q overflow)).1 = _ ∧ _
  have hidle : ∀ hsettled : SettledVelocity b cfg q overflow,
      (∀ scope, b.optimizerVelocity.lookup scope = b.optimizerVelocity.lookup scope) ↔
        SettledVelocity b cfg q overflow :=
    fun hsettled => iff_of_true (fun _ => rfl) hsettled
  unfold smooth
  cases hlatest : (insertSubmission b cfg.clipNorm q).latestModels.lookup
      (scopeKey q.tenantId q.modelId) with
  | none =>
    refine ⟨b.optimizerVelocity, rfl, hidle ?_⟩
    intro latest hsome
    rw [show b.latestModels.lookup (scopeKey q.tenantId q.modelId) = none from hlatest] at hsome
    cases hsome
  | some latest =>
    have hstored : b.latestModels.lookup (scopeKey q.tenantId q.modelId) = some latest := hlatest
    by_cases happlies : latest.weights.length = q.weights.length ∧
        isPositive cfg.serverMomentum = true
    · have hne : latest.weights ≠ [] := by
        intro hnil
        rw [hnil] at happlies
        exact hpositive happlies.1.symm
      have hsame : latest.weights.length = (plainAggregate b cfg q overflow).length := by
        rw [hlength]
        exact happlies.1
      simp only [hne, ne_eq, not_false_eq_true, hsame, happlies.2, and_self, if_true]
      refine ⟨_, rfl, ?_⟩
      have hkeeps := momentum_keeps_iff cfg.serverMomentum
        (b.optimizerVelocity.lookup (scopeKey q.tenantId q.modelId)) hsame
      constructor
      · intro hvelocity latest' hsome _ _
        rw [hstored, Option.some.injEq] at hsome
        subst hsome
        have hscope := hvelocity (scopeKey q.tenantId q.modelId)
        rw [AList.lookup_insert] at hscope
        rw [← hlength]
        exact hkeeps.mp hscope.symm
      · intro hsettled scope
        have hfixed := hsettled latest hstored happlies.1 happlies.2
        rw [← hlength] at hfixed
        by_cases hscope : scope = scopeKey q.tenantId q.modelId
        · rw [hscope, AList.lookup_insert]
          exact (hkeeps.mpr hfixed).symm
        · rw [AList.lookup_insert_ne hscope]
          rfl
    · have hoff : ¬ (latest.weights ≠ [] ∧
          latest.weights.length = (plainAggregate b cfg q overflow).length ∧
          isPositive cfg.serverMomentum = true) := by
        rw [hlength]
        exact fun hall => happlies hall.2
      simp only [if_neg hoff]
      refine ⟨b.optimizerVelocity, rfl, hidle ?_⟩
      intro latest' hsome hdimension hmomentum
      rw [hstored, Option.some.injEq] at hsome
      subst hsome
      exact absurd ⟨hdimension, hmomentum⟩ happlies

theorem smooth_congr {b b' : WeightBuffer F} (h : SameMaps b b') (momentum : F) (scope : String)
    (result : List F) :
    (smooth b' momentum scope result).2 = (smooth b momentum scope result).2 := by
  unfold smooth
  rw [h.latest, h.velocity]
  cases b.latestModels.lookup scope with
  | none => rfl
  | some latest => simp only [apply_ite Prod.snd]

theorem SameMaps.inserted {b b' : WeightBuffer F} (h : SameMaps b b') (clipNorm : F)
    (q : Submission F) : SameMaps (insertSubmission b clipNorm q) (insertSubmission b' clipNorm q) where
  weights key := by
    simp only [insertSubmission, submissions, h.weights]
    by_cases hkey : key = roundKey q.tenantId q.modelId q.round
    · rw [hkey, AList.lookup_insert, AList.lookup_insert]
    · rw [AList.lookup_insert_ne hkey, AList.lookup_insert_ne hkey, h.weights]
  sizes key := by
    simp only [insertSubmission, datasetSizes, h.sizes]
    by_cases hkey : key = roundKey q.tenantId q.modelId q.round
    · rw [hkey, AList.lookup_insert, AList.lookup_insert]
    · rw [AList.lookup_insert_ne hkey, AList.lookup_insert_ne hkey, h.sizes]
  completed := h.completed
  latest := h.latest
  velocity := h.velocity

theorem SameMaps.retries {b b' : WeightBuffer F} (h : SameMaps b b') : SameRetries b b' := by
  intro cfg q noise overflow
  have hinserted := h.inserted cfg.clipNorm q
  unfold computeAggregate submissions datasetSizes
  simp only [hinserted.weights, hinserted.sizes, smooth_congr hinserted]

/-- A rejected attempt leaves the maps and what a retry computes as they were if
and only if it came late, did not pass the validation, or found the velocity of
its scope settled. -/
theorem rejected_attempt_unchanged (P : Primitives) (cfg : AggregationConfig F) (e : CryptoEngine)
    (files : CheckpointFiles) (store : StateStore) {b : WeightBuffer F} (q : Submission F)
    (draw : Draw F) (now : ℕ) (hgrown : Grown b)
    (hnone : hasClientSubmission b q.tenantId q.modelId q.round q.clientId = false)
    (hrejected : (addWeightAndCheckAggregate P cfg e files store b q draw now).2.2.2.accepted =
      false) :
    (SameMaps b (addWeightAndCheckAggregate P cfg e files store b q draw now).1 ∧
        SameRetries b (addWeightAndCheckAggregate P cfg e files store b q draw now).1) ↔
      isRoundCompleted b q.tenantId q.modelId q.round = true ∨
        validateWeights (attempted b cfg q) ≠ "" ∨ SettledVelocity b cfg q draw.overflow := by
  have hfresh : q.clientId ∉ submissions b (roundKey q.tenantId q.modelId q.round) := by
    rw [hasClientSubmission_eq, Option.isSome_eq_false_iff, Option.isNone_iff_eq_none] at hnone
    exact AList.lookup_eq_none.mp hnone
  have hattempt := attempt_cases P cfg e files store b q draw now
  rw [hrejected] at hattempt
  unfold isRoundCompleted
  rw [decide_eq_true_eq, and_iff_left_of_imp SameMaps.retries]
  generalize (addWeightAndCheckAggregate P cfg e files store b q draw now).1 = b' at hattempt ⊢
  cases hattempt with
  | late hlate =>
    exact iff_of_true ⟨fun _ => rfl, fun _ => rfl, rfl, fun _ => rfl, fun _ => rfl⟩ (.inl hlate)
  | invalid hopen hinvalid =>
    have hsame := (sameMaps_rolledBack hgrown.consistent hfresh cfg.clipNorm
      b.optimizerVelocity).mpr (fun _ => rfl)
    exact iff_of_true hsame (.inr (.inl hinvalid))
  | unwritten hopen hvalid =>
    obtain ⟨velocity, hcomputed, hsettled⟩ := computed_velocity hvalid draw.noise draw.overflow
    rw [hcomputed, sameMaps_rolledBack hgrown.consistent hfresh, hsettled]
    constructor
    · exact fun h => .inr (.inr h)
    · rintro (hlate | hinvalid | h)
      · exact absurd hlate hopen
      · exact absurd hvalid hinvalid
      · exact h

end

def restartedBuffer : WeightBuffer Binary32 :=
  restoreLatestGlobalModel emptyBuffer "t" "m" 1 1 [ofInt 0]

theorem restartedBuffer_grown : Grown restartedBuffer := .restored .empty "t" "m" 1 1 [ofInt 0]

def lateSubmission : Submission Binary32 :=
  ⟨"t", "m", "a", 2, 1, [Arith.ofInt 1 / Arith.ofInt 4], 1⟩

def unopened : Draw Binary32 := { (calm 0).draw with persistence := .cannotOpen }

def withMomentum (momentum : Binary32) : AggregationConfig Binary32 :=
  { defaultConfig.toAggregationConfig with serverMomentum := momentum }

def unopenedAttempt (momentum : Binary32) :
    WeightBuffer Binary32 × CheckpointFiles × Option (Outcome ℤ) × AggregationAttemptResult :=
  addWeightAndCheckAggregate standInPrimitives (withMomentum momentum) firstWorld.crypto
    firstWorld.files firstWorld.store restartedBuffer lateSubmission unopened 0

/-- Without momentum the rejected attempt leaves nothing behind. -/
theorem rejected_attempt_unchanged_plain :
    SameMaps restartedBuffer (unopenedAttempt (ofInt 0)).1 ∧
      SameRetries restartedBuffer (unopenedAttempt (ofInt 0)).1 := by
  have hnone : hasClientSubmission restartedBuffer "t" "m" 2 "a" = false := by decide +kernel
  have hrejected : (unopenedAttempt (ofInt 0)).2.2.2.accepted = false := by decide +kernel
  have hoff : isPositive (ofInt 0) = false := by decide +kernel
  unfold unopenedAttempt at hrejected ⊢
  have hiff := rejected_attempt_unchanged standInPrimitives (withMomentum (ofInt 0))
    firstWorld.crypto firstWorld.files firstWorld.store lateSubmission unopened 0
    restartedBuffer_grown hnone hrejected
  apply hiff.mpr
  right
  right
  intro latest _ _ hmomentum
  rw [show (withMomentum (ofInt 0)).serverMomentum = ofInt 0 from rfl, hoff] at hmomentum
  cases hmomentum

/-- With a momentum of one half the velocity of the failed attempt stays, and
the retry comes to three eighths instead of a quarter. -/
theorem rejected_attempt_keeps_velocity :
    Grown restartedBuffer ∧ hasClientSubmission restartedBuffer "t" "m" 2 "a" = false ∧
    (unopenedAttempt (ofInt 1 / ofInt 2)).2.2.2.accepted = false ∧
    ¬ SameMaps restartedBuffer (unopenedAttempt (ofInt 1 / ofInt 2)).1 ∧
    ¬ SameRetries restartedBuffer (unopenedAttempt (ofInt 1 / ofInt 2)).1 := by
  refine ⟨restartedBuffer_grown, by decide +kernel, by decide +kernel, ?_, ?_⟩
  · intro hsame
    have hvelocity := congrArg Option.isSome (hsame.velocity (scopeKey "t" "m"))
    exact absurd hvelocity (by decide +kernel)
  · intro hsame
    have hretry := hsame (withMomentum (ofInt 1 / ofInt 2)) lateSubmission (fun _ => ofInt 0)
      (fun _ => ofInt 0)
    exact absurd hretry (by decide +kernel)

end PqFl.RejectedAttempts
