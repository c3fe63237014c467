import PqFl.MomentumBounds

/-!
# Models without a clip norm

`Validate` accepts a clip norm of zero. Then nothing is clipped, and the noise has
no deviation. The published models stay bounded through rounds alone exactly while
`server_momentum` is below one; through rollbacks, restarts and checkpoints that
could not be written, which move the model or the velocity but not both, exactly
while it is below one half.
-/

set_option autoImplicit false

namespace PqFl.ModelBounds
open PqFl.Runs PqFl.Aggregation PqFl.Buffer PqFl.ExactArithmetic PqFl.ListVectors
open PqFl.SampleWeights PqFl.ServerOptimizer PqFl.ClippedVectors PqFl.NoiseCalibration
open PqFl.MomentumBounds PqFl.HeavyBall PqFl.Configuration

noncomputable section

variable {n : ℕ} {clients : WeightMap ℝ} {sizes : SizeMap} {cfg : AggregationConfig ℝ}
  {reach : ℝ}

/-- Accepted settings without a clip norm. -/
structure Unclipped (cfg : AggregationConfig ℝ) : Prop extends Validated cfg where
  clipNorm : cfg.clipNorm = 0

/-- The draws of a distribution without deviation. -/
def Silent : ScopeAction ℝ → Prop
  | .aggregated _ _ noise _ => ∀ i, noise i = 0
  | .unwritten _ _ noise _ => ∀ i, noise i = 0
  | _ => True

/-- Every submitted weight is within reach. -/
def Quiet (reach : ℝ) (s : ScopeModels ℝ) (a : ScopeAction ℝ) : Prop :=
  Permitted (Limited reach) s a ∧ Silent a

theorem noiseSigma_unclipped (epsilon delta : ℝ) (numClients : ℕ) :
    noiseSigma Real.log 0 epsilon delta numClients = 0 := by
  rw [noiseSigma_exact, zero_mul, zero_div]

theorem clipWeights_unclipped (weights : List ℝ) : clipWeights weights 0 = weights := by
  have hnone : isPositive (0 : ℝ) = false := by
    rw [Bool.eq_false_iff, Ne, positive_exact]
    exact lt_irrefl 0
  unfold clipWeights
  rw [hnone]
  rfl

theorem computed_unclipped (hcfg : Unclipped cfg) (x : Optimizer ℝ) (h : clients.entries ≠ [])
    (sizes : SizeMap) {noise : ℕ → ℝ} (hnoise : ∀ i, noise i = 0) (overflow : ℕ → ℝ) :
    computed cfg x clients sizes noise overflow = smoothed cfg.serverMomentum x
      (aggregate overflow cfg.aggregationStrategy cfg.trimmedMeanBeta clients sizes) := by
  have hsilent : ∀ result : List ℝ, result.mapIdx (fun i value => value + noise i) = result := by
    intro result
    simp only [hnoise, add_zero]
    exact List.ext_getElem? (fun i => by rw [List.getElem?_mapIdx, Option.map_id'])
  unfold computed unnoised
  dsimp only
  rw [noised_exact hcfg.toValidated (List.length_pos_iff.mpr h), hsilent, hcfg.clipNorm,
    clipWeights_unclipped]

/-- The published models and the velocity have these bounds. -/
structure Within (near fast : ℝ) (s : ScopeModels ℝ) : Prop where
  published : ∀ p ∈ s.published, Between (-near) near p
  latest : ∀ p, s.optimizer.latest = some p → p ∈ s.published
  velocity : SlowerThan fast s

/-- The bounds are kept by a step. -/
structure Closed (cfg : AggregationConfig ℝ) (reach near fast : ℝ) : Prop where
  nonneg : 0 ≤ fast
  model : reach + cfg.serverMomentum * fast ≤ near
  velocity : cfg.serverMomentum * fast + (reach + near) ≤ fast

theorem smoothed_model {β clip near bound : ℝ} (hβ : 0 ≤ β) (hbound : 0 ≤ bound)
    (hstable : clip + β * bound ≤ near) {x : Optimizer ℝ} {result : List ℝ}
    (hresult : Between (-clip) clip result)
    (hvelocity : ∀ v, x.velocity = some v → Between (-bound) bound v) :
    Between (-near) near (smoothed β x result).2 := by
  have hzero := mul_nonneg hβ hbound
  have hstep := smoothed_smoothing β x result
  cases hsmoothed : smoothed β x result with
  | mk y model =>
    rw [hsmoothed] at hstep
    intro d hd
    cases hstep with
    | @moved latest velocity _ _ _ _ hmodel hmove hplace =>
      dsimp only at hd
      rw [hmodel] at hd
      have hnew := hresult d hd
      have hinside := velocityAt_between hbound hvelocity hd
      have hup := mul_le_mul_of_nonneg_left hinside.2 hβ
      have hdown := mul_le_mul_of_nonneg_left hinside.1 hβ
      dsimp only
      rw [hplace d hd, hmove d hd, place_next]
      constructor
      · linarith
      · linarith
    | kept _ =>
      have hnew := hresult d hd
      constructor
      · linarith
      · linarith

theorem computed_within (hcfg : Unclipped cfg) {near fast : ℝ} (hclosed : Closed cfg reach near fast)
    {s : ScopeModels ℝ} (h : Within near fast s) (hlimited : Limited reach clients sizes)
    {noise : ℕ → ℝ} (hnoise : ∀ i, noise i = 0) (overflow : ℕ → ℝ) :
    Between (-near) near (computed cfg s.optimizer clients sizes noise overflow).2 ∧
    ∀ v, (computed cfg s.optimizer clients sizes noise overflow).1.velocity = some v →
      Between (-fast) fast v := by
  have hresult := aggregate_limited hcfg.toValidated hlimited overflow
  obtain ⟨⟨n, hadmitted⟩, -⟩ := hlimited
  rw [computed_unclipped hcfg s.optimizer hadmitted.nonempty sizes hnoise]
  constructor
  · exact smoothed_model hcfg.serverMomentum hclosed.nonneg hclosed.model hresult h.velocity
  · apply smoothed_velocity hcfg.serverMomentum hclosed.nonneg hclosed.velocity hresult _ h.velocity
    intro p hp
    exact h.published p (h.latest p hp)

theorem step_within (hcfg : Unclipped cfg) {near fast : ℝ} (hclosed : Closed cfg reach near fast)
    (s : ScopeModels ℝ) (a : ScopeAction ℝ) (s' : ScopeModels ℝ) (h : Within near fast s)
    (hquiet : Quiet reach s a) (hs : step cfg s a = some s') : Within near fast s' := by
  obtain ⟨hproper, hsilent⟩ := hquiet
  constructor
  · apply step_published h.published _ hs
    rintro clients sizes noise overflow rfl
    exact (computed_within hcfg hclosed h hproper hsilent overflow).1
  · exact step_latest h.latest hproper hs
  · cases a with
    | aggregated clients sizes noise overflow =>
      rw [← Option.some.inj hs]
      exact (computed_within hcfg hclosed h hproper hsilent overflow).2
    | unwritten clients sizes noise overflow =>
      rw [← Option.some.inj hs]
      exact (computed_within hcfg hclosed h hproper hsilent overflow).2
    | restored model =>
      rw [← Option.some.inj hs]
      exact h.velocity
    | restarted model =>
      rw [← Option.some.inj hs]
      intro v hv
      cases hv

theorem within_nothing (near fast : ℝ) : Within near fast noModels where
  published := by
    intro p hp
    cases hp
  latest := by
    intro p hp
    cases hp
  velocity := by
    intro v hv
    cases hv

theorem closed_of_momentum (hcfg : Unclipped cfg) (hreach : 0 < reach)
    (hmomentum : cfg.serverMomentum < 1 / 2) :
    Closed cfg reach (reach / (1 - 2 * cfg.serverMomentum))
      (2 * reach / (1 - 2 * cfg.serverMomentum)) := by
  have hrest : 0 < 1 - 2 * cfg.serverMomentum := by linarith
  have hmomentum' := hcfg.serverMomentum
  have hpositive : 0 < reach / (1 - 2 * cfg.serverMomentum) := div_pos hreach hrest
  have hshare := div_mul_cancel₀ reach hrest.ne'
  rw [mul_div_assoc]
  generalize reach / (1 - 2 * cfg.serverMomentum) = near at hpositive hshare
  constructor
  · linarith
  · linarith
  · linarith

/-- The model of one weight stays where it is, and the velocity grows to its other side. -/
structure Charged (reach y σ : ℝ) (k : ℕ) (s : ScopeModels ℝ) : Prop where
  latest : s.optimizer.latest = some [y]
  length : (s.optimizer.velocity.getD []).length ≤ 1
  velocity : min (k * reach) (2 * |y|) ≤ σ * coordinate (s.optimizer.velocity.getD []) 0

theorem abs_side {σ : ℝ} (hσ : σ * σ = 1) : |σ| = 1 := by
  have hsquare : |σ| * |σ| = 1 := by rw [abs_mul_abs_self, hσ]
  have hnonneg := abs_nonneg σ
  nlinarith

theorem soleModel_limited {value : ℝ} (hvalue : |value| ≤ reach) :
    Limited reach (soleModel value) soleSize :=
  ⟨⟨1, soleModel_admitted _⟩, by decide, between_single (abs_le.mp hvalue)⟩

theorem computed_single (hcfg : Unclipped cfg) (hmomentum : 0 < cfg.serverMomentum) {y v : ℝ}
    {x : Optimizer ℝ} (hlatest : x.latest = some [y])
    (hlength : (x.velocity.getD []).length ≤ 1) (hv : coordinate (x.velocity.getD []) 0 = v)
    (u : ℝ) : computed cfg x (soleModel u) soleSize (fun _ => 0) (fun _ => 0) =
      (⟨some [y], some [move cfg.serverMomentum y v u]⟩,
        [y + move cfg.serverMomentum y v u]) := by
  rw [computed_unclipped hcfg x (soleModel_admitted u).nonempty soleSize (fun _ => rfl),
    aggregate_sole hcfg.toValidated, smoothed_single hmomentum hlatest hlength hv]

/-- The only client of a round submits this weight. -/
def soleRound (value : ℝ) : ScopeAction ℝ :=
  .aggregated (soleModel value) soleSize (fun _ => 0) (fun _ => 0)

theorem soleRound_quiet {value : ℝ} (hvalue : |value| ≤ reach) (s : ScopeModels ℝ) :
    Quiet reach s (soleRound value) := ⟨soleModel_limited hvalue, fun _ => rfl⟩

theorem step_single (hcfg : Unclipped cfg) (hmomentum : 0 < cfg.serverMomentum) {y v : ℝ}
    {s : ScopeModels ℝ} (hlatest : s.optimizer.latest = some [y])
    (hlength : (s.optimizer.velocity.getD []).length ≤ 1)
    (hv : coordinate (s.optimizer.velocity.getD []) 0 = v) (u : ℝ) :
    step cfg s (soleRound u) =
      some ⟨⟨some [y + move cfg.serverMomentum y v u], some [move cfg.serverMomentum y v u]⟩,
        [y + move cfg.serverMomentum y v u] :: s.published⟩ := by
  rw [soleRound, step, computed_single hcfg hmomentum hlatest hlength hv]

theorem abs_side_reach {σ : ℝ} (hσ : σ * σ = 1) (hreach : 0 < reach) : |σ * reach| ≤ reach := by
  rw [abs_mul, abs_side hσ, one_mul, abs_of_pos hreach]

theorem charged_next (hcfg : Unclipped cfg) (hreach : 0 < reach)
    (hmomentum : 1 / 2 ≤ cfg.serverMomentum) {y σ : ℝ} (hσ : σ * σ = 1) (hy : σ * y = -|y|) {k : ℕ}
    {s : ScopeModels ℝ} (h : Charged reach y σ k s) :
    ∃ a s', Quiet reach s a ∧ step cfg s a = some s' ∧ Charged reach y σ (k + 1) s' := by
  have hcomputed := computed_single hcfg (by linarith) h.latest h.length rfl (σ * reach)
  refine ⟨.unwritten (soleModel (σ * reach)) soleSize (fun _ => 0) (fun _ => 0), _,
    ⟨soleModel_limited (abs_side_reach hσ hreach), fun _ => rfl⟩, rfl, ?_⟩
  rw [hcomputed]
  constructor
  · rfl
  · exact le_rfl
  · show _ ≤ σ * move cfg.serverMomentum y _ (σ * reach)
    rw [side_move hσ hy]
    exact charge_next hmomentum hreach.le (abs_nonneg y) h.velocity

theorem reaches_charged (hcfg : Unclipped cfg) (hreach : 0 < reach)
    (hmomentum : 1 / 2 ≤ cfg.serverMomentum)
    {s : ScopeModels ℝ} (hs : Reaches (step cfg) (Quiet reach) noModels s) {y : ℝ}
    (hpublished : [y] ∈ s.published) {σ : ℝ} (hσ : σ * σ = 1) (hy : σ * y = -|y|) (k : ℕ) :
    ∃ s', Reaches (step cfg) (Quiet reach) noModels s' ∧ Charged reach y σ k s' := by
  induction k with
  | zero =>
    have hquiet : Quiet reach s (.restarted (some [y])) := by
      refine ⟨?_, trivial⟩
      intro p hp
      rw [← Option.some.inj hp]
      exact hpublished
    refine ⟨_, hs.next hquiet rfl, rfl, Nat.zero_le 1, ?_⟩
    show min (((0 : ℕ) : ℝ) * reach) (2 * |y|) ≤ σ * 0
    rw [Nat.cast_zero, zero_mul, mul_zero]
    exact min_le_left _ _
  | succ k ih =>
    obtain ⟨s', hs', hcharged⟩ := ih
    obtain ⟨a, s'', hquiet, hstep, hnext⟩ := charged_next hcfg hreach hmomentum hσ hy hcharged
    exact ⟨s'', hs'.next hquiet hstep, hnext⟩

theorem farther (hcfg : Unclipped cfg) (hreach : 0 < reach)
    (hmomentum : 1 / 2 ≤ cfg.serverMomentum)
    {s : ScopeModels ℝ} (hs : Reaches (step cfg) (Quiet reach) noModels s) {y : ℝ}
    (hpublished : [y] ∈ s.published) :
    ∃ s' z, Reaches (step cfg) (Quiet reach) noModels s' ∧ [z] ∈ s'.published ∧
      |y| + reach ≤ |z| := by
  obtain ⟨σ, hσ, hy⟩ := exists_side y
  obtain ⟨k, hk⟩ := exists_nat_gt (2 * |y| / reach)
  rw [div_lt_iff₀ hreach] at hk
  obtain ⟨s', hs', hcharged⟩ := reaches_charged hcfg hreach hmomentum hs hpublished hσ hy k
  have hstep := step_single hcfg (by linarith) hcharged.latest hcharged.length rfl (σ * reach)
  have hcharge := hcharged.velocity
  rw [min_eq_right hk.le] at hcharge
  generalize coordinate (s'.optimizer.velocity.getD []) 0 = v at hstep hcharge
  refine ⟨_, y + move cfg.serverMomentum y v (σ * reach),
    hs'.next (soleRound_quiet (abs_side_reach hσ hreach) s') hstep, List.mem_cons_self, ?_⟩
  · rw [place_next]
    have hside : σ * (σ * reach + cfg.serverMomentum * v) =
        reach + cfg.serverMomentum * (σ * v) := by
      calc σ * (σ * reach + cfg.serverMomentum * v) =
          σ * σ * reach + cfg.serverMomentum * (σ * v) := by ring
        _ = reach + cfg.serverMomentum * (σ * v) := by rw [hσ, one_mul]
    have hfast : 0 ≤ σ * v := (by positivity : 0 ≤ 2 * |y|).trans hcharge
    have hhalf := mul_le_mul_of_nonneg_right hmomentum hfast
    calc |y| + reach ≤ reach + cfg.serverMomentum * (σ * v) := by linarith
      _ = σ * (σ * reach + cfg.serverMomentum * v) := hside.symm
      _ ≤ |σ * (σ * reach + cfg.serverMomentum * v)| := le_abs_self _
      _ = |σ * reach + cfg.serverMomentum * v| := by rw [abs_mul, abs_side hσ, one_mul]

/-- Every checkpoint is written, nothing is put back, and all models have as many weights. -/
def Rounds (reach : ℝ) (n : ℕ) (_ : ScopeModels ℝ) : ScopeAction ℝ → Prop
  | .aggregated clients sizes noise _ => Limited reach clients sizes ∧
    (∀ e ∈ clients.entries, e.2.length = n) ∧ ∀ i, noise i = 0
  | _ => False

/-- No weight of the model has more energy together with its velocity. -/
structure Swings (cfg : AggregationConfig ℝ) (n : ℕ) (R : ℝ) (s : ScopeModels ℝ) : Prop where
  published : ∀ p ∈ s.published, Between (-(2 * R)) (2 * R) p
  latest : ∀ p, s.optimizer.latest = some p → p.length = n ∧ ∀ d < n,
    energy cfg.serverMomentum (coordinate p d) (velocityAt s.optimizer n d) ≤ R ^ 2
  fresh : s.optimizer.latest = none → s.optimizer.velocity = none

theorem velocityAt_of_length {x : Optimizer ℝ} {velocity : List ℝ}
    (hvelocity : x.velocity = some velocity) (hlength : velocity.length = n) (d : ℕ) :
    velocityAt x n d = coordinate velocity d := by
  unfold velocityAt
  rw [hvelocity, Option.getD_some, if_pos hlength]

theorem smoothed_energy (hcfg : Unclipped cfg) (hmomentum : cfg.serverMomentum < 1) {R : ℝ}
    (hR : 0 ≤ R) (hstable : √cfg.serverMomentum * R + reach ≤ R) {s : ScopeModels ℝ}
    (h : Swings cfg n R s) {result : List ℝ} (hlength : result.length = n)
    (hresult : Between (-reach) reach result) {y : Optimizer ℝ} {model : List ℝ}
    (hsmoothed : Smoothing cfg.serverMomentum s.optimizer result (y, model)) :
    model.length = n ∧ ∀ d < n, energy cfg.serverMomentum (coordinate model d)
      (velocityAt ⟨some model, y.velocity⟩ n d) ≤ R ^ 2 := by
  have hβ := hcfg.serverMomentum
  cases hsmoothed with
  | @moved latest velocity _ hlatest _ hvelocity hmodel hmove hplace =>
    rw [hlength] at hvelocity hmodel hmove hplace
    refine ⟨hmodel, ?_⟩
    intro d hd
    rw [velocityAt_of_length rfl hvelocity, hplace d hd, hmove d hd]
    apply energy_bounded hβ hmomentum.le hR hstable
    · exact abs_le.mpr (hresult d (hlength.symm ▸ hd))
    · exact (h.latest latest hlatest).2 d hd
  | kept hstill =>
    refine ⟨hlength, ?_⟩
    intro d hd
    have hsquare : coordinate result d ^ 2 ≤ R ^ 2 := by
      have hinside := abs_le.mpr (hresult d (hlength.symm ▸ hd))
      have hroot := mul_nonneg (Real.sqrt_nonneg cfg.serverMomentum) hR
      rw [← sq_abs]
      exact pow_le_pow_left₀ (abs_nonneg _) (by linarith) 2
    cases hlatest : s.optimizer.latest with
    | none =>
      have hnone : velocityAt ⟨some result, s.optimizer.velocity⟩ n d = 0 := by
        unfold velocityAt
        rw [h.fresh hlatest, Option.getD_none, if_neg]
        exact fun hempty => absurd hd (by rw [← hempty]; exact Nat.not_lt_zero d)
      rw [hnone, energy_still]
      exact hsquare
    | some latest =>
      rcases hstill latest hlatest ((h.latest latest hlatest).1.trans hlength.symm) with
        hempty | hzero
      · omega
      · have hnothing : cfg.serverMomentum = 0 := le_antisymm hzero hβ
        have henergy : ∀ x v : ℝ, energy 0 x v = x ^ 2 := by
          intro x v
          unfold energy
          ring
        rw [hnothing, henergy]
        exact hsquare

theorem step_swings (hcfg : Unclipped cfg) (hmomentum : cfg.serverMomentum < 1) {R : ℝ}
    (hR : 0 ≤ R) (hstable : √cfg.serverMomentum * R + reach ≤ R) (s : ScopeModels ℝ)
    (a : ScopeAction ℝ) (s' : ScopeModels ℝ) (h : Swings cfg n R s) (hround : Rounds reach n s a)
    (hs : step cfg s a = some s') : Swings cfg n R s' := by
  cases a with
  | aggregated clients sizes noise overflow =>
    obtain ⟨hlimited, hdimensions, hnoise⟩ := hround
    have hresult := aggregate_limited hcfg.toValidated hlimited overflow
    obtain ⟨⟨_, hadmitted⟩, -⟩ := hlimited
    have hlength := aggregate_length hadmitted.nonempty hdimensions overflow
      cfg.aggregationStrategy cfg.trimmedMeanBeta sizes
    rw [step, computed_unclipped hcfg s.optimizer hadmitted.nonempty sizes hnoise] at hs
    generalize aggregate overflow cfg.aggregationStrategy cfg.trimmedMeanBeta clients sizes =
      result at hlength hresult hs
    have hsmoothed := smoothed_smoothing cfg.serverMomentum s.optimizer result
    generalize smoothed cfg.serverMomentum s.optimizer result = next at hsmoothed hs
    obtain ⟨y, model⟩ := next
    obtain ⟨hmodel, henergy⟩ :=
      smoothed_energy hcfg hmomentum hR hstable h hlength hresult hsmoothed
    obtain rfl := Option.some.inj hs
    constructor
    · intro p hp
      rcases List.mem_cons.mp hp with rfl | hold
      · intro d hd
        exact abs_le.mp (abs_place_le hmomentum.le hcfg.serverMomentum hR
          (henergy d (hmodel ▸ hd)))
      · exact h.published p hold
    · intro p hp
      obtain rfl := Option.some.inj hp
      exact ⟨hmodel, henergy⟩
    · intro hnone
      cases hnone
  | unwritten _ _ _ _ => exact hround.elim
  | restored _ => exact hround.elim
  | restarted _ => exact hround.elim

theorem rounds_bounded (hcfg : Unclipped cfg) (hreach : 0 < reach)
    (hmomentum : cfg.serverMomentum < 1)
    {s : ScopeModels ℝ} (h : Reaches (step cfg) (Rounds reach n) noModels s) :
    ∀ p ∈ s.published, Between (-(2 * (reach / (1 - √cfg.serverMomentum))))
      (2 * (reach / (1 - √cfg.serverMomentum))) p := by
  have hroot : 0 < 1 - √cfg.serverMomentum := by
    have hless : √cfg.serverMomentum < 1 := by
      rw [Real.sqrt_lt' one_pos, one_pow]
      exact hmomentum
    linarith
  have hpositive := (div_pos hreach hroot).le
  have hshare := div_mul_cancel₀ reach hroot.ne'
  generalize reach / (1 - √cfg.serverMomentum) = R at hpositive hshare
  have hswings : Swings cfg n R s := by
    apply h.invariant _ (step_swings hcfg hmomentum hpositive (by linarith))
    constructor
    · intro p hp
      cases hp
    · intro p hp
      cases hp
    · intro _
      rfl
  exact hswings.published

/-- The model of one weight moved here from `before`, and has this much energy. -/
structure Swung (cfg : AggregationConfig ℝ) (reach : ℝ) (k : ℕ) (x before : ℝ)
    (s : ScopeModels ℝ) : Prop where
  latest : s.optimizer.latest = some [x]
  here : [x] ∈ s.published
  there : [before] ∈ s.published
  length : (s.optimizer.velocity.getD []).length ≤ 1
  velocity : coordinate (s.optimizer.velocity.getD []) 0 = x - before
  energy : k * reach ^ 2 ≤ energy cfg.serverMomentum x (x - before)

theorem first_round (hcfg : Unclipped cfg) (value : ℝ) : step cfg noModels (soleRound value) =
    some ⟨⟨some [value], none⟩, [[value]]⟩ := by
  rw [soleRound, step, computed_unclipped hcfg _ (soleModel_admitted value).nonempty soleSize
    (fun _ => rfl), aggregate_sole hcfg.toValidated]
  rfl

theorem exists_push (hreach : 0 < reach) (y : ℝ) :
    ∃ u, |u| ≤ reach ∧ u ^ 2 = reach ^ 2 ∧ 0 ≤ u * y := by
  by_cases hy : 0 ≤ y
  · exact ⟨reach, (abs_of_pos hreach).le, rfl, mul_nonneg hreach.le hy⟩
  · refine ⟨-reach, by rw [abs_neg, abs_of_pos hreach], neg_sq _, ?_⟩
    exact mul_nonneg_of_nonpos_of_nonpos (by linarith) (by linarith)

theorem soleRound_rounds {value : ℝ} (hvalue : |value| ≤ reach) (s : ScopeModels ℝ) :
    Rounds reach 1 s (soleRound value) :=
  ⟨soleModel_limited hvalue, (soleModel_admitted value).dimensions, fun _ => rfl⟩

theorem swung_next (hcfg : Unclipped cfg) (hreach : 0 < reach)
    (hmomentum : 1 ≤ cfg.serverMomentum) {k : ℕ} {x before : ℝ} {s : ScopeModels ℝ}
    (h : Swung cfg reach k x before s) :
    ∃ a s' y, Rounds reach 1 s a ∧ step cfg s a = some s' ∧ Swung cfg reach (k + 1) y x s' := by
  obtain ⟨u, hu, hsquare, hpush⟩ := exists_push hreach (x - before - x / 2)
  have hstep := step_single hcfg (by linarith) h.latest h.length h.velocity u
  have hround := soleRound_rounds hu s
  refine ⟨_, _, x + move cfg.serverMomentum x (x - before) u, hround, hstep, ?_⟩
  have hmoved : x + move cfg.serverMomentum x (x - before) u - x =
      move cfg.serverMomentum x (x - before) u := by ring
  constructor
  · rfl
  · exact List.mem_cons_self
  · exact List.mem_cons_of_mem _ h.here
  · exact le_rfl
  · exact hmoved.symm
  · have hnonneg : 0 ≤ (k : ℝ) * reach ^ 2 := by positivity
    have hgrown := energy_grows hmomentum hpush (hnonneg.trans h.energy)
    have henergy := h.energy
    rw [hsquare] at hgrown
    rw [hmoved, Nat.cast_add, Nat.cast_one]
    linarith

theorem reaches_swung (hcfg : Unclipped cfg) (hreach : 0 < reach)
    (hmomentum : 1 ≤ cfg.serverMomentum) (k : ℕ) :
    ∃ s x before, Reaches (step cfg) (Rounds reach 1) noModels s ∧ Swung cfg reach k x before s := by
  induction k with
  | zero =>
    have hround := soleRound_rounds (abs_of_pos hreach).le noModels
    refine ⟨_, reach, reach, Reaches.start.next hround (first_round hcfg reach), rfl,
      List.mem_cons_self, List.mem_cons_self, Nat.zero_le 1, (sub_self _).symm, ?_⟩
    rw [sub_self, energy_still, Nat.cast_zero, zero_mul]
    exact sq_nonneg _
  | succ k ih =>
    obtain ⟨s, x, before, hs, hswung⟩ := ih
    obtain ⟨a, s', y, hround, hstep, hnext⟩ := swung_next hcfg hreach hmomentum hswung
    exact ⟨s', y, x, hs.next hround hstep, hnext⟩

theorem abs_single_le {bound y : ℝ} (h : Between (-bound) bound [y]) : |y| ≤ bound :=
  abs_le.mpr (h 0 Nat.zero_lt_one)

theorem reaches_far (hcfg : Unclipped cfg) (hreach : 0 < reach)
    (hmomentum : 1 / 2 ≤ cfg.serverMomentum) (k : ℕ) :
    ∃ s y, Reaches (step cfg) (Quiet reach) noModels s ∧ [y] ∈ s.published ∧
      k * reach ≤ |y| := by
  induction k with
  | zero =>
    have hquiet := soleRound_quiet (abs_of_pos hreach).le noModels
    refine ⟨_, reach, Reaches.start.next hquiet (first_round hcfg reach),
      List.mem_cons_self, ?_⟩
    rw [Nat.cast_zero, zero_mul]
    exact abs_nonneg _
  | succ k ih =>
    obtain ⟨s, y, hs, hpublished, hfar⟩ := ih
    obtain ⟨s', z, hs', hpublished', hfarther⟩ := farther hcfg hreach hmomentum hs hpublished
    refine ⟨s', z, hs', hpublished', ?_⟩
    rw [Nat.cast_add, Nat.cast_one]
    linarith

theorem runs_bounded (hcfg : Unclipped cfg) (hreach : 0 < reach)
    (hmomentum : cfg.serverMomentum < 1 / 2)
    {s : ScopeModels ℝ} (h : Reaches (step cfg) (Quiet reach) noModels s) :
    ∀ p ∈ s.published, Between (-(reach / (1 - 2 * cfg.serverMomentum)))
      (reach / (1 - 2 * cfg.serverMomentum)) p := by
  have hclosed := closed_of_momentum hcfg hreach hmomentum
  have hwithin := h.invariant (within_nothing _ _) (step_within hcfg hclosed)
  exact hwithin.published

/-- With a configuration which `Validate` accepts and no clip norm, the noise has no
deviation. The published models are bounded over all runs exactly when the momentum
is below one half, and over runs of rounds alone exactly when it is below one. -/
theorem models_bounded_iff {cfg : ServerConfig ℝ} (hvalid : validate cfg = .ok ())
    (hclip : cfg.clipNorm = 0) (hreach : 0 < reach) :
    (∀ numClients, noiseSigma Real.log cfg.clipNorm cfg.dpEpsilon cfg.dpDelta numClients = 0) ∧
    ((∃ bound, ∀ s, Reaches (step cfg) (Quiet reach) noModels s →
      ∀ p ∈ s.published, Between (-bound) bound p) ↔ cfg.serverMomentum < 1 / 2) ∧
    (cfg.serverMomentum < 1 / 2 → ∀ s, Reaches (step cfg) (Quiet reach) noModels s →
      ∀ p ∈ s.published, Between (-(reach / (1 - 2 * cfg.serverMomentum)))
        (reach / (1 - 2 * cfg.serverMomentum)) p) ∧
    ((∃ bound, ∀ n s, Reaches (step cfg) (Rounds reach n) noModels s →
      ∀ p ∈ s.published, Between (-bound) bound p) ↔ cfg.serverMomentum < 1) := by
  have hcfg : Unclipped cfg.toAggregationConfig := ⟨validated_of_validate hvalid, hclip⟩
  refine ⟨?_, ⟨?_, fun hmomentum => ⟨_, fun s h => runs_bounded hcfg hreach hmomentum h⟩⟩,
    fun hmomentum s h => runs_bounded hcfg hreach hmomentum h,
    ⟨?_, fun hmomentum => ⟨_, fun n s h => rounds_bounded hcfg hreach hmomentum h⟩⟩⟩
  · rw [hclip]
    exact noiseSigma_unclipped _ _
  · rintro ⟨bound, hbound⟩
    by_contra hmomentum
    obtain ⟨k, hk⟩ := exists_nat_gt (bound / reach)
    rw [div_lt_iff₀ hreach] at hk
    obtain ⟨s, y, hs, hpublished, hfar⟩ := reaches_far hcfg hreach (not_lt.mp hmomentum) k
    have hnear := abs_single_le (hbound s hs _ hpublished)
    linarith
  · rintro ⟨bound, hbound⟩
    by_contra hmomentum
    obtain ⟨k, hk⟩ := exists_nat_gt
      ((1 + 6 * cfg.serverMomentum) * bound ^ 2 / reach ^ 2)
    rw [div_lt_iff₀ (by positivity)] at hk
    obtain ⟨s, x, before, hs, hswung⟩ := reaches_swung hcfg hreach (not_lt.mp hmomentum) k
    have hx := abs_single_le (hbound 1 s hs _ hswung.here)
    have hbefore := abs_single_le (hbound 1 s hs _ hswung.there)
    have henergy := energy_le hcfg.serverMomentum hx hbefore
    have hswings := hswung.energy
    linarith

/-- With momentum 0.9 rounds alone keep the models bounded, but all runs do not. -/
theorem models_bounded_examples :
    (¬ ∃ bound, ∀ s, Reaches (step (momentumConfig (9 / 10) 0)) (Quiet 1) noModels s →
      ∀ p ∈ s.published, Between (-bound) bound p) ∧
    ∃ bound, ∀ n s, Reaches (step (momentumConfig (9 / 10) 0)) (Rounds 1 n) noModels s →
      ∀ p ∈ s.published, Between (-bound) bound p := by
  obtain ⟨-, hall, -, hrounds⟩ := models_bounded_iff
    (momentumConfig_valid (by norm_num : (0 : ℝ) ≤ 9 / 10) le_rfl) rfl one_pos
  rw [hall, hrounds]
  norm_num [momentumConfig]

end

end PqFl.ModelBounds
