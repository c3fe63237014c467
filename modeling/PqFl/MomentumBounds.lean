import PqFl.Configuration
import PqFl.HeavyBall
import PqFl.NoiseCalibration
import PqFl.TrimmedMeans

/-!
# When server momentum is stable

What the velocity is multiplied with every round is `server_momentum`, of which
`Validate` only requires that it is not negative. With a clip norm, the models that
are published stay in its ball; the velocity stays bounded exactly when the momentum
is below one.
-/

set_option autoImplicit false

namespace PqFl.MomentumBounds
open PqFl.Runs PqFl.Aggregation PqFl.Buffer PqFl.ExactArithmetic PqFl.ListVectors
open PqFl.SampleWeights PqFl.KrumResilience PqFl.TrimmedMeans PqFl.ServerOptimizer
open PqFl.ClippedVectors PqFl.Configuration PqFl.NoiseCalibration PqFl.HeavyBall

noncomputable section

variable {n : ℕ} {clients : WeightMap ℝ} {sizes : SizeMap}

/-- Every coordinate lies between these bounds. -/
def Between (low high : ℝ) (v : List ℝ) : Prop :=
  ∀ d < v.length, low ≤ coordinate v d ∧ coordinate v d ≤ high

theorem aggFedAvg_between (h : Admitted clients sizes n) (hcount : sampleCount sizes < 2^31)
    {low high : ℝ} (hclients : ∀ e ∈ clients.entries, Between low high e.2)
    (overflow : ℕ → ℝ) : Between low high (aggFedAvg overflow clients sizes) := by
  have hmean := aggFedAvg_weightedMean h hcount overflow
  intro d hd
  rw [hmean.length] at hd
  apply hmean.between d hd
  intro e he
  apply hclients e he
  rw [h.dimensions e he]
  exact hd

theorem unit_sizes (l : List ((_ : String) × List ℝ)) (start : SizeMap)
    (hfresh : (l.keys ++ start.keys).Nodup) (hone : ∀ e ∈ start.entries, e.2 = 1) :
    (l.foldl (fun sizes e => sizes.insert e.1 1) start).keys.Perm (l.keys ++ start.keys) ∧
      ∀ e ∈ (l.foldl (fun sizes e => sizes.insert e.1 1) start).entries, e.2 = 1 := by
  induction l generalizing start with
  | nil => exact ⟨List.Perm.refl _, hone⟩
  | cons x l ih =>
    rw [List.keys_cons, List.cons_append, List.nodup_cons] at hfresh
    have hx : x.1 ∉ start := by
      rw [AList.mem_keys]
      exact fun hmem => hfresh.1 (List.mem_append_right _ hmem)
    have hentries : (start.insert x.1 1).entries = ⟨x.1, 1⟩ :: start.entries :=
      AList.entries_insert_of_notMem hx
    have hkeys : (start.insert x.1 1).keys = x.1 :: start.keys := by
      rw [AList.keys, hentries]
      rfl
    have hmoved : (l.keys ++ (x.1 :: start.keys)).Perm (x.1 :: (l.keys ++ start.keys)) :=
      List.perm_middle
    obtain ⟨hperm, hall⟩ := ih (start.insert x.1 1)
      (by rw [hkeys, hmoved.nodup_iff, List.nodup_cons]; exact hfresh)
      (by
        rw [hentries]
        intro e he
        rcases List.mem_cons.mp he with rfl | hold
        · rfl
        · exact hone e hold)
    rw [hkeys] at hperm
    exact ⟨hperm.trans hmoved, hall⟩

theorem aggKrum_between (h : Admitted clients sizes n) {low high : ℝ}
    (hclients : ∀ e ∈ clients.entries, Between low high e.2) :
    Between low high (aggKrum clients) := by
  by_cases hfew : clients.entries.length < 3
  · have hnodup : (clients.entries.keys ++ (∅ : SizeMap).keys).Nodup := by
      rw [AList.keys_empty, List.append_nil]
      exact clients.nodupKeys
    obtain ⟨hperm, hone⟩ := unit_sizes clients.entries ∅ hnodup
      (fun e he => absurd he List.not_mem_nil)
    rw [AList.keys_empty, List.append_nil] at hperm
    generalize hsizes : clients.entries.foldl (fun sizes e => sizes.insert e.1 1) (∅ : SizeMap) =
      units at hperm hone
    have hadmitted : Admitted clients units n := by
      refine ⟨h.nonempty, h.dimensions, hperm, ?_⟩
      intro e he
      rw [hone e he]
      decide
    have hcount : sampleCount units < 2^31 := by
      rw [sampleCount_of_keys hperm]
      have hunit : ∀ c ∈ clients.entries.keys, sampleSize units c = 1 := by
        intro c _
        unfold sampleSize
        cases hfound : units.lookup c with
        | none => rfl
        | some size => exact hone ⟨c, size⟩ (AList.mem_lookup_iff.mp hfound)
      rw [List.map_congr_left hunit, List.map_const', List.sum_replicate, nsmul_eq_mul, mul_one,
        List.keys, List.length_map]
      omega
    have hkrum : aggKrum clients = aggFedAvg (fun _ => Arith.ofInt 0) clients units := by
      unfold aggKrum
      simp only
      rw [if_pos hfew, hsizes]
    rw [hkrum]
    exact aggFedAvg_between hadmitted hcount hclients _
  · have hvectors : vectorsOf clients ≠ [] := fun hnil => h.nonempty (List.map_eq_nil_iff.mp hnil)
    have hbest := krumBest_lt hvectors (neighbours clients.entries.length)
    have hlength : (vectorsOf clients).length = clients.entries.length := List.length_map _
    rw [hlength] at hbest
    rw [aggKrum_at (by omega), List.getElem?_eq_getElem hbest]
    exact hclients _ (List.getElem_mem hbest)

theorem aggTrimmedMean_between {β : ℝ} (hβ : 0 ≤ β) (hhalf : β < 1 / 2)
    (h : Admitted clients sizes n) {low high : ℝ}
    (hclients : ∀ e ∈ clients.entries, Between low high e.2) :
    Between low high (aggTrimmedMean clients β) := by
  have hlength := List.length_pos_iff.mpr h.nonempty
  have hdimension := Aggregation.dimension_eq h.nonempty h.dimensions
  have htwice := twice_trimCount hβ hhalf hlength
  intro d hd
  have hd' : d < dimension clients := by
    unfold aggTrimmedMean at hd
    rwa [List.length_map, List.length_range] at hd
  rw [aggTrimmedMean_coordinate hβ hhalf hlength hd']
  generalize hkept : ((axisOf clients d).drop (trimCount β clients.entries.length)).take
    (clients.entries.length - 2 * trimCount β clients.entries.length) = kept
  have hcount : kept.length = clients.entries.length - 2 * trimCount β clients.entries.length := by
    rw [← hkept, List.length_take, List.length_drop, axisOf_length]
    omega
  have hvalues : ∀ x ∈ kept, low ≤ x ∧ x ≤ high := by
    intro x hx
    rw [← hkept] at hx
    have haxis : x ∈ axisOf clients d := List.mem_of_mem_drop (List.mem_of_mem_take hx)
    obtain ⟨e, he, rfl⟩ := List.mem_map.mp ((sortFloats_perm _).mem_iff.mp haxis)
    apply hclients e he
    rw [h.dimensions e he, ← hdimension]
    exact hd'
  have hpositive : (0 : ℝ) < kept.length := by
    rw [hcount]
    exact_mod_cast (by omega : 0 < clients.entries.length - 2 * trimCount β clients.entries.length)
  have hlow := List.card_nsmul_le_sum _ low (fun x hx => (hvalues x hx).1)
  have hhigh := List.sum_le_card_nsmul _ high (fun x hx => (hvalues x hx).2)
  rw [nsmul_eq_mul] at hlow hhigh
  rw [← hcount, le_div_iff₀ hpositive, div_le_iff₀ hpositive, mul_comm low, mul_comm high]
  exact ⟨hlow, hhigh⟩

theorem aggregate_between {strategy : String} {β : ℝ} (hβ : 0 ≤ β) (hhalf : β < 1 / 2)
    (h : Admitted clients sizes n) (hcount : sampleCount sizes < 2^31) {low high : ℝ}
    (hclients : ∀ e ∈ clients.entries, Between low high e.2) (overflow : ℕ → ℝ) :
    Between low high (aggregate overflow strategy β clients sizes) := by
  unfold aggregate
  split
  · exact aggKrum_between h hclients
  split
  · exact aggTrimmedMean_between hβ hhalf h hclients
  · exact aggFedAvg_between h hcount hclients overflow

theorem abs_coordinate_le {l : List ℝ} {d : ℕ} (hd : d < l.length) :
    |coordinate l d| ≤ ‖vector l.length l‖ :=
  PiLp.norm_apply_le (vector l.length l) ⟨d, hd⟩

theorem between_of_norm {l : List ℝ} {bound : ℝ} (h : ‖vector l.length l‖ ≤ bound) :
    Between (-bound) bound l := fun _ hd => abs_le.mp ((abs_coordinate_le hd).trans h)

/-- What `Validate` requires of the settings of an aggregation, but for the clip norm. -/
structure Validated (cfg : AggregationConfig ℝ) : Prop where
  dpEpsilon : 0 < cfg.dpEpsilon
  dpDelta : 0 < cfg.dpDelta ∧ cfg.dpDelta < 1
  trimmedMeanBeta : 0 ≤ cfg.trimmedMeanBeta ∧ cfg.trimmedMeanBeta < 1 / 2
  serverMomentum : 0 ≤ cfg.serverMomentum

/-- Also that there is a clip norm. -/
structure Clipping (cfg : AggregationConfig ℝ) : Prop extends Validated cfg where
  clipNorm : 0 < cfg.clipNorm

theorem nonnegative_exact (x : ℝ) : isNonnegative x = true ↔ 0 ≤ x := by
  have hless : Arith.lt x (Arith.ofInt 0) = false ↔ 0 ≤ x := by
    rw [Bool.eq_false_iff, Ne, lt_exact, not_lt]
    show ((0 : ℤ) : ℝ) ≤ x ↔ 0 ≤ x
    rw [Int.cast_zero]
  unfold isNonnegative
  rw [Bool.or_eq_true, positive_exact, Bool.and_eq_true, Bool.not_eq_true', hless]
  constructor
  · rintro (hpositive | ⟨-, hle⟩)
    · exact hpositive.le
    · exact hle
  · exact fun hle => .inr ⟨rfl, hle⟩

theorem lt_one_exact (x : ℝ) : Arith.lt x (Arith.ofInt 1) = true ↔ x < 1 := by
  rw [lt_exact]
  show x < ((1 : ℤ) : ℝ) ↔ x < 1
  rw [Int.cast_one]

theorem lt_half_exact (x : ℝ) :
    Arith.lt x (Arith.ofInt 1 / Arith.ofInt 2) = true ↔ x < 1 / 2 := by
  rw [lt_exact]
  show x < ((1 : ℤ) : ℝ) / ((2 : ℤ) : ℝ) ↔ x < 1 / 2
  rw [Int.cast_one, Int.cast_ofNat]

theorem validated_of_validate {cfg : ServerConfig ℝ} (h : validate cfg = .ok ()) :
    Validated cfg.toAggregationConfig := by
  have hall := validate_ok.mp h
  simp only [requirements, List.forall_mem_cons, Bool.and_eq_true, positive_exact,
    nonnegative_exact, lt_one_exact, lt_half_exact] at hall
  obtain ⟨-, -, -, -, -, -, -, -, -, -, -, -, hmomentum, hbeta, hepsilon, hdelta, -⟩ := hall
  exact ⟨hepsilon, hdelta, hbeta, hmomentum⟩

/-- Every weight of a round is within reach, and the sizes add up to an `int`. -/
def Limited (reach : ℝ) (clients : WeightMap ℝ) (sizes : SizeMap) : Prop :=
  (∃ n, Admitted clients sizes n) ∧ sampleCount sizes < 2^31 ∧
    ∀ e ∈ clients.entries, Between (-reach) reach e.2

/-- The submissions of a round are clipped, and their sizes add up to an `int`. -/
def Clipped (cfg : AggregationConfig ℝ) (clients : WeightMap ℝ) (sizes : SizeMap) : Prop :=
  (∃ n, Admitted clients sizes n) ∧ sampleCount sizes < 2^31 ∧
    ∀ e ∈ clients.entries, ∃ raw, e.2 = clipWeights raw cfg.clipNorm

theorem Clipped.limited {cfg : AggregationConfig ℝ} (hclip : 0 < cfg.clipNorm)
    (h : Clipped cfg clients sizes) : Limited cfg.clipNorm clients sizes := by
  refine ⟨h.1, h.2.1, ?_⟩
  intro e he
  obtain ⟨raw, hraw⟩ := h.2.2 e he
  apply between_of_norm
  rw [hraw]
  exact norm_clipWeights (clipWeights_length _ _).symm hclip

theorem aggregate_limited {cfg : AggregationConfig ℝ} (hcfg : Validated cfg) {reach : ℝ}
    (h : Limited reach clients sizes) (overflow : ℕ → ℝ) :
    Between (-reach) reach
      (aggregate overflow cfg.aggregationStrategy cfg.trimmedMeanBeta clients sizes) := by
  obtain ⟨⟨n, hadmitted⟩, hcount, hlimited⟩ := h
  exact aggregate_between hcfg.trimmedMeanBeta.1 hcfg.trimmedMeanBeta.2 hadmitted hcount
    hlimited overflow

theorem noised_exact {cfg : AggregationConfig ℝ} (hcfg : Validated cfg) {clientCount : ℕ}
    (hclients : 0 < clientCount) (noise : ℕ → ℝ) (result : List ℝ) :
    noised cfg clientCount noise result =
      clipWeights (result.mapIdx (fun i value => value + noise i)) cfg.clipNorm := by
  have hcount : (clientCount == 0) = false := by
    rw [beq_eq_false_iff_ne]
    omega
  rw [noised, if_pos ((positive_exact _).mpr hcfg.dpEpsilon), applyDifferentialPrivacy,
    (positive_exact _).mpr hcfg.dpEpsilon, (positive_exact _).mpr hcfg.dpDelta.1,
    (lt_one_exact _).mpr hcfg.dpDelta.2, hcount]
  rfl

theorem norm_noised {cfg : AggregationConfig ℝ} (hcfg : Clipping cfg) {clientCount : ℕ}
    (hclients : 0 < clientCount) (noise : ℕ → ℝ) (result : List ℝ) :
    ‖vector (noised cfg clientCount noise result).length
      (noised cfg clientCount noise result)‖ ≤ cfg.clipNorm := by
  rw [noised_exact hcfg.toValidated hclients]
  exact norm_clipWeights (clipWeights_length _ _).symm hcfg.clipNorm

/-- A coordinate of the velocity, zero when the velocity is not that long. -/
def velocityAt (x : Optimizer ℝ) (n d : ℕ) : ℝ :=
  if (x.velocity.getD []).length = n then coordinate (x.velocity.getD []) d else 0

theorem applyMomentum_coordinate (β : ℝ) (x : Optimizer ℝ) {latest result : List ℝ}
    (hlatest : latest.length = n) (hresult : result.length = n) {d : ℕ} (hd : d < n) :
    coordinate (applyMomentum β (x.velocity.getD []) latest result).1 d =
      move β (coordinate latest d) (velocityAt x n d) (coordinate result d) := by
  have hvector := (applyMomentum_exact β (x.velocity.getD []) hlatest hresult).2.2.1
  have hplace := congrArg (fun y : EuclideanSpace ℝ (Fin n) => y ⟨d, hd⟩) hvector
  unfold velocityAt
  by_cases hsame : (x.velocity.getD []).length = n
  · rw [if_pos hsame] at hplace ⊢
    exact hplace
  · rw [if_neg hsame] at hplace ⊢
    exact hplace

/-- Each coordinate of the model makes its own move. -/
inductive Smoothing (β : ℝ) (x : Optimizer ℝ) (result : List ℝ) : Optimizer ℝ × List ℝ → Prop
  | moved {latest velocity model : List ℝ} (hlatest : x.latest = some latest)
      (hlength : latest.length = result.length) (hvelocity : velocity.length = result.length)
      (hmodel : model.length = result.length)
      (hmove : ∀ d < result.length, coordinate velocity d =
        move β (coordinate latest d) (velocityAt x result.length d) (coordinate result d))
      (hplace : ∀ d < result.length,
        coordinate model d = coordinate latest d + coordinate velocity d) :
      Smoothing β x result (⟨x.latest, some velocity⟩, model)
  | kept (hstill : ∀ latest, x.latest = some latest → latest.length = result.length →
      result.length = 0 ∨ β ≤ 0) : Smoothing β x result (x, result)

theorem smoothed_smoothing (β : ℝ) (x : Optimizer ℝ) (result : List ℝ) :
    Smoothing β x result (smoothed β x result) := by
  unfold smoothed
  cases hlatest : x.latest with
  | none =>
    apply Smoothing.kept
    intro latest hsome
    rw [hlatest] at hsome
    cases hsome
  | some latest =>
    dsimp only
    by_cases hmoves : latest ≠ [] ∧ latest.length = result.length ∧ isPositive β = true
    · obtain ⟨hvelocity, hmodel, -, hplace⟩ :=
        applyMomentum_exact β (x.velocity.getD []) hmoves.2.1 rfl
      rw [if_pos hmoves, ← hlatest]
      apply Smoothing.moved hlatest hmoves.2.1 hvelocity hmodel
      · intro d hd
        exact applyMomentum_coordinate β x hmoves.2.1 rfl hd
      · intro d hd
        exact congrArg (fun y : EuclideanSpace ℝ (Fin result.length) => y ⟨d, hd⟩) hplace
    · rw [if_neg hmoves]
      apply Smoothing.kept
      intro latest' hsome hlength
      obtain rfl := Option.some.inj (hlatest.symm.trans hsome)
      by_contra hneither
      rw [not_or, not_le, ← positive_exact] at hneither
      apply hmoves
      refine ⟨?_, hlength, hneither.2⟩
      intro hnil
      rw [hnil] at hlength
      exact hneither.1 hlength.symm

theorem velocityAt_between {x : Optimizer ℝ} {bound : ℝ} (hbound : 0 ≤ bound)
    (h : ∀ v, x.velocity = some v → Between (-bound) bound v) {d : ℕ} (hd : d < n) :
    -bound ≤ velocityAt x n d ∧ velocityAt x n d ≤ bound := by
  unfold velocityAt
  by_cases hsame : (x.velocity.getD []).length = n
  · rw [if_pos hsame]
    rw [← hsame] at hd
    cases hstored : x.velocity with
    | none =>
      rw [hstored] at hd
      exact absurd hd (Nat.not_lt_zero d)
    | some stored =>
      rw [hstored] at hd
      exact h stored hstored d hd
  · rw [if_neg hsame]
    exact ⟨neg_nonpos.mpr hbound, hbound⟩

theorem smoothed_velocity {β clip near bound : ℝ} (hβ : 0 ≤ β) (hbound : 0 ≤ bound)
    (hstable : β * bound + (clip + near) ≤ bound) {x : Optimizer ℝ} {result : List ℝ}
    (hresult : Between (-clip) clip result)
    (hlatest : ∀ p, x.latest = some p → Between (-near) near p)
    (hvelocity : ∀ v, x.velocity = some v → Between (-bound) bound v) :
    ∀ v, (smoothed β x result).1.velocity = some v → Between (-bound) bound v := by
  intro v hv
  cases hsmoothed : smoothed β x result with
  | mk y model =>
    rw [hsmoothed] at hv
    have hstep := smoothed_smoothing β x result
    rw [hsmoothed] at hstep
    cases hstep with
    | @moved latest velocity _ hmodel hlength hlong _ hmove _ =>
      obtain rfl := Option.some.inj hv
      intro d hd
      rw [hlong] at hd
      have hnew := hresult d hd
      have hold := hlatest latest hmodel d (hlength ▸ hd)
      have hinside := velocityAt_between hbound hvelocity hd
      have hup := mul_le_mul_of_nonneg_left hinside.2 hβ
      have hdown := mul_le_mul_of_nonneg_left hinside.1 hβ
      rw [hmove d hd, move]
      constructor
      · linarith
      · linarith
    | kept _ => exact hvelocity v hv

/-- Every published model is in the ball, and the latest model is one of them. -/
structure InBall (cfg : AggregationConfig ℝ) (s : ScopeModels ℝ) : Prop where
  published : ∀ p ∈ s.published, ‖vector p.length p‖ ≤ cfg.clipNorm
  latest : ∀ p, s.optimizer.latest = some p → p ∈ s.published

theorem step_inBall {cfg : AggregationConfig ℝ} (hcfg : Clipping cfg) (s : ScopeModels ℝ)
    (a : ScopeAction ℝ) (s' : ScopeModels ℝ) (h : InBall cfg s) (hproper : Permitted (Clipped cfg) s a)
    (hs : step cfg s a = some s') : InBall cfg s' := by
  constructor
  · apply step_published h.published _ hs
    rintro clients sizes noise overflow rfl
    obtain ⟨⟨n, hadmitted⟩, -⟩ := hproper
    exact norm_noised hcfg (List.length_pos_iff.mpr hadmitted.nonempty) noise
      (unnoised cfg s.optimizer clients sizes overflow).2
  · exact step_latest h.latest hproper hs

theorem run_inBall {cfg : AggregationConfig ℝ} (hcfg : Clipping cfg) {s : ScopeModels ℝ}
    (h : Reaches (step cfg) (Permitted (Clipped cfg)) noModels s) : InBall cfg s := by
  apply h.invariant _ (step_inBall hcfg)
  constructor
  · intro p hp
    cases hp
  · intro p hp
    cases hp

/-- The velocity has these bounds. -/
def SlowerThan (bound : ℝ) (s : ScopeModels ℝ) : Prop :=
  ∀ v, s.optimizer.velocity = some v → Between (-bound) bound v

theorem computed_slower {cfg : AggregationConfig ℝ} (hcfg : Clipping cfg) {bound : ℝ}
    (hbound : 0 ≤ bound) (hstable : cfg.serverMomentum * bound + 2 * cfg.clipNorm ≤ bound)
    {s : ScopeModels ℝ} (hball : InBall cfg s) (h : SlowerThan bound s)
    (hclipped : Clipped cfg clients sizes) (noise overflow : ℕ → ℝ) :
    ∀ v, (computed cfg s.optimizer clients sizes noise overflow).1.velocity = some v →
      Between (-bound) bound v := by
  apply smoothed_velocity hcfg.serverMomentum hbound (by linarith)
    (aggregate_limited hcfg.toValidated (hclipped.limited hcfg.clipNorm) overflow) _ h
  intro p hp
  exact between_of_norm (hball.published p (hball.latest p hp))

theorem step_slower {cfg : AggregationConfig ℝ} (hcfg : Clipping cfg) {bound : ℝ}
    (hbound : 0 ≤ bound) (hstable : cfg.serverMomentum * bound + 2 * cfg.clipNorm ≤ bound)
    (s : ScopeModels ℝ) (a : ScopeAction ℝ) (s' : ScopeModels ℝ) (h : SlowerThan bound s)
    (hproper : Permitted (Clipped cfg) s a ∧ InBall cfg s) (hs : step cfg s a = some s') :
    SlowerThan bound s' := by
  cases a with
  | aggregated clients sizes noise overflow =>
    rw [← Option.some.inj hs]
    exact computed_slower hcfg hbound hstable hproper.2 h hproper.1 noise overflow
  | unwritten clients sizes noise overflow =>
    rw [← Option.some.inj hs]
    exact computed_slower hcfg hbound hstable hproper.2 h hproper.1 noise overflow
  | restored model =>
    rw [← Option.some.inj hs]
    exact h
  | restarted model =>
    rw [← Option.some.inj hs]
    intro v hv
    cases hv

theorem run_slower {cfg : AggregationConfig ℝ} (hcfg : Clipping cfg)
    (hmomentum : cfg.serverMomentum < 1) {s : ScopeModels ℝ}
    (h : Reaches (step cfg) (Permitted (Clipped cfg)) noModels s) :
    SlowerThan (2 * cfg.clipNorm / (1 - cfg.serverMomentum)) s := by
  have hrest : 0 < 1 - cfg.serverMomentum := by linarith
  have hclip := hcfg.clipNorm
  have hbound : 0 ≤ 2 * cfg.clipNorm / (1 - cfg.serverMomentum) := by positivity
  have hstable : cfg.serverMomentum * (2 * cfg.clipNorm / (1 - cfg.serverMomentum)) +
      2 * cfg.clipNorm ≤ 2 * cfg.clipNorm / (1 - cfg.serverMomentum) := by
    apply le_of_eq
    field_simp
    ring
  have hball : InBall cfg noModels := run_inBall hcfg .start
  apply (h.strengthen hball (step_inBall hcfg)).invariant _ (step_slower hcfg hbound hstable)
  intro v hv
  cases hv

def soleModel (value : ℝ) : WeightMap ℝ where
  entries := [⟨"a", [value]⟩]
  nodupKeys := List.nodup_singleton _

def soleSize : SizeMap where
  entries := [⟨"a", 1⟩]
  nodupKeys := List.nodup_singleton _

theorem soleModel_admitted (value : ℝ) : Admitted (soleModel value) soleSize 1 where
  nonempty := List.cons_ne_nil _ _
  dimensions := by
    intro e he
    rw [List.mem_singleton.mp he]
    rfl
  clients := List.Perm.refl _
  sizes := by
    intro e he
    rw [List.mem_singleton.mp he]
    decide

theorem norm_single (value : ℝ) : ‖vector 1 [value]‖ = |value| := by
  rw [EuclideanSpace.norm_eq, Fin.sum_univ_one]
  exact Real.sqrt_sq (abs_nonneg value)

theorem clip_single {value clipNorm : ℝ} (hclip : 0 < clipNorm) (hvalue : |value| ≤ clipNorm) :
    clipWeights [value] clipNorm = [value] :=
  clipWeights_inside rfl hclip ((norm_single value).trans_le hvalue)

theorem soleModel_clipped {cfg : AggregationConfig ℝ} {value : ℝ} (hclip : 0 < cfg.clipNorm)
    (hvalue : |value| ≤ cfg.clipNorm) : Clipped cfg (soleModel value) soleSize := by
  have hkept := clip_single hclip hvalue
  refine ⟨⟨1, soleModel_admitted _⟩, by decide, ?_⟩
  intro e he
  rw [List.mem_singleton.mp he]
  exact ⟨[value], hkept.symm⟩

theorem between_single {low high value : ℝ} (h : low ≤ value ∧ value ≤ high) :
    ∀ e ∈ (soleModel value).entries, Between low high e.2 := by
  intro e he
  rw [List.mem_singleton.mp he]
  intro d hd
  obtain rfl : d = 0 := by simpa using hd
  exact h

theorem aggregate_sole {cfg : AggregationConfig ℝ} (hcfg : Validated cfg) (value : ℝ)
    (overflow : ℕ → ℝ) : aggregate overflow cfg.aggregationStrategy cfg.trimmedMeanBeta
      (soleModel value) soleSize = [value] := by
  have hadmitted := soleModel_admitted value
  have hlength := Aggregation.aggregate_length hadmitted.nonempty hadmitted.dimensions overflow
    cfg.aggregationStrategy cfg.trimmedMeanBeta soleSize
  have hbetween : Between value value (aggregate overflow cfg.aggregationStrategy
      cfg.trimmedMeanBeta (soleModel value) soleSize) :=
    aggregate_between hcfg.trimmedMeanBeta.1 hcfg.trimmedMeanBeta.2 hadmitted (by decide)
      (between_single ⟨le_rfl, le_rfl⟩) overflow
  obtain ⟨x, hx⟩ := List.length_eq_one_iff.mp hlength
  rw [hx] at hbetween ⊢
  have hvalue : value ≤ x ∧ x ≤ value := hbetween 0 Nat.zero_lt_one
  rw [le_antisymm hvalue.2 hvalue.1]

theorem noised_opposite {cfg : AggregationConfig ℝ} (hcfg : Clipping cfg) (value : ℝ) :
    noised cfg 1 (fun _ => -cfg.clipNorm - value) [value] = [-cfg.clipNorm] := by
  have hopposite : value + (-cfg.clipNorm - value) = -cfg.clipNorm := by ring
  have hkept : clipWeights [-cfg.clipNorm] cfg.clipNorm = [-cfg.clipNorm] :=
    clip_single hcfg.clipNorm (by rw [abs_neg, abs_of_pos hcfg.clipNorm])
  rw [noised_exact hcfg.toValidated one_pos]
  show clipWeights [value + (-cfg.clipNorm - value)] cfg.clipNorm = _
  rw [hopposite, hkept]

/-- The model is at one end of the ball, and the velocity has gone the way across it
so many times. -/
structure Pulled (cfg : AggregationConfig ℝ) (rounds : ℕ) (s : ScopeModels ℝ) : Prop where
  latest : s.optimizer.latest = some [-cfg.clipNorm]
  length : (s.optimizer.velocity.getD []).length ≤ 1
  velocity : 2 * cfg.clipNorm * rounds ≤ coordinate (s.optimizer.velocity.getD []) 0

theorem velocityAt_single {x : Optimizer ℝ} (hlength : (x.velocity.getD []).length ≤ 1) :
    velocityAt x 1 0 = coordinate (x.velocity.getD []) 0 := by
  unfold velocityAt
  by_cases hone : (x.velocity.getD []).length = 1
  · rw [if_pos hone]
  · have hnil : x.velocity.getD [] = [] := List.length_eq_zero_iff.mp (by omega)
    rw [if_neg hone, hnil]
    rfl

theorem smoothed_single {β y v : ℝ} (hβ : 0 < β) {x : Optimizer ℝ} (hlatest : x.latest = some [y])
    (hlength : (x.velocity.getD []).length ≤ 1) (hv : coordinate (x.velocity.getD []) 0 = v)
    (u : ℝ) : smoothed β x [u] = (⟨some [y], some [move β y v u]⟩, [y + move β y v u]) := by
  cases hsmoothed : smoothed β x [u] with
  | mk z model =>
    have hstep := smoothed_smoothing β x [u]
    rw [hsmoothed] at hstep
    cases hstep with
    | @moved latest velocity _ hmodel _ hlong hmodelLong hmove hplace =>
      obtain rfl := Option.some.inj (hlatest.symm.trans hmodel)
      obtain ⟨w, rfl⟩ := List.length_eq_one_iff.mp hlong
      obtain ⟨m, rfl⟩ := List.length_eq_one_iff.mp hmodelLong
      have hw : w = move β y v u := by
        rw [← hv, ← velocityAt_single hlength]
        exact hmove 0 Nat.zero_lt_one
      have hm : m = y + w := hplace 0 Nat.zero_lt_one
      rw [hlatest, hm, hw]
    | kept hstill =>
      rcases hstill [y] hlatest rfl with hempty | hnone
      · cases hempty
      · exact absurd hβ (not_lt.mpr hnone)

theorem pulled_next {cfg : AggregationConfig ℝ} (hcfg : Clipping cfg)
    (hmomentum : 1 ≤ cfg.serverMomentum) {rounds : ℕ} {s : ScopeModels ℝ}
    (h : Pulled cfg rounds s) :
    ∃ a s', Permitted (Clipped cfg) s a ∧ step cfg s a = some s' ∧ Pulled cfg (rounds + 1) s' := by
  have hclip := hcfg.clipNorm
  have hreach : |cfg.clipNorm| ≤ cfg.clipNorm := (abs_of_pos hclip).le
  have hsmoothed := smoothed_single (by linarith : 0 < cfg.serverMomentum) h.latest h.length rfl
    cfg.clipNorm
  generalize hfast : move cfg.serverMomentum (-cfg.clipNorm)
    (coordinate (s.optimizer.velocity.getD []) 0) cfg.clipNorm = fast at hsmoothed
  generalize hmoved : -cfg.clipNorm + fast = moved at hsmoothed
  rw [← aggregate_sole hcfg.toValidated cfg.clipNorm (fun _ => 0)] at hsmoothed
  have hback : noised cfg (soleModel cfg.clipNorm).entries.length
      (fun _ => -cfg.clipNorm - moved) [moved] = [-cfg.clipNorm] := noised_opposite hcfg moved
  refine ⟨.aggregated (soleModel cfg.clipNorm) soleSize (fun _ => -cfg.clipNorm - moved)
    (fun _ => 0), ⟨⟨some [-cfg.clipNorm], some [fast]⟩, [-cfg.clipNorm] :: s.published⟩,
    soleModel_clipped hclip hreach, ?_, rfl, le_rfl, ?_⟩
  · simp only [step, computed, unnoised, hsmoothed, hback]
  · have hway := h.velocity
    have hpositive : 0 ≤ coordinate (s.optimizer.velocity.getD []) 0 := by
      have hrounds : (0 : ℝ) ≤ 2 * cfg.clipNorm * rounds := by positivity
      linarith
    have hgrown := mul_le_mul_of_nonneg_right hmomentum hpositive
    show 2 * cfg.clipNorm * ((rounds + 1 : ℕ) : ℝ) ≤ fast
    rw [← hfast, move, Nat.cast_add, Nat.cast_one]
    linarith

theorem reaches_pulled {cfg : AggregationConfig ℝ} (hcfg : Clipping cfg)
    (hmomentum : 1 ≤ cfg.serverMomentum) (rounds : ℕ) :
    ∃ s, Reaches (step cfg) (Permitted (Clipped cfg)) noModels s ∧ Pulled cfg rounds s := by
  induction rounds with
  | zero =>
    have hback : noised cfg (soleModel cfg.clipNorm).entries.length
        (fun _ => -cfg.clipNorm - cfg.clipNorm) [cfg.clipNorm] = [-cfg.clipNorm] :=
      noised_opposite hcfg cfg.clipNorm
    have hfirst : step cfg noModels (.aggregated (soleModel cfg.clipNorm) soleSize
        (fun _ => -cfg.clipNorm - cfg.clipNorm) (fun _ => 0)) =
        some ⟨⟨some [-cfg.clipNorm], none⟩, [[-cfg.clipNorm]]⟩ := by
      simp only [step, computed, unnoised, aggregate_sole hcfg.toValidated, smoothed, noModels,
        hback]
    have hproper : Permitted (Clipped cfg) noModels (.aggregated (soleModel cfg.clipNorm) soleSize
        (fun _ => -cfg.clipNorm - cfg.clipNorm) (fun _ => 0)) :=
      soleModel_clipped hcfg.clipNorm (abs_of_pos hcfg.clipNorm).le
    refine ⟨_, Reaches.start.next hproper hfirst, rfl, Nat.zero_le 1, ?_⟩
    rw [Nat.cast_zero, mul_zero]
    exact le_rfl
  | succ rounds ih =>
    obtain ⟨s, hs, hpulled⟩ := ih
    obtain ⟨a, s', hproper, hstep, hnext⟩ := pulled_next hcfg hmomentum hpulled
    exact ⟨s', hs.next hproper hstep, hnext⟩

/-- With a configuration which `Validate` accepts and a clip norm, the published
models stay in the ball whatever the momentum is. The velocity is bounded over all
runs exactly when the momentum is below one, and then by the way across the ball
over what is missing to one. -/
theorem velocity_bounded_iff {cfg : ServerConfig ℝ} (hvalid : validate cfg = .ok ())
    (hclip : 0 < cfg.clipNorm) :
    (∀ s, Reaches (step cfg) (Permitted (Clipped cfg)) noModels s →
      ∀ p ∈ s.published, ‖vector p.length p‖ ≤ cfg.clipNorm) ∧
    ((∃ bound, ∀ s, Reaches (step cfg) (Permitted (Clipped cfg)) noModels s → SlowerThan bound s) ↔
      cfg.serverMomentum < 1) ∧
    (cfg.serverMomentum < 1 → ∀ s, Reaches (step cfg) (Permitted (Clipped cfg)) noModels s →
      SlowerThan (2 * cfg.clipNorm / (1 - cfg.serverMomentum)) s) := by
  have hcfg : Clipping cfg.toAggregationConfig := ⟨validated_of_validate hvalid, hclip⟩
  refine ⟨fun s h => (run_inBall hcfg h).published, ?_,
    fun hmomentum s h => run_slower hcfg hmomentum h⟩
  constructor
  · rintro ⟨bound, hbound⟩
    by_contra hmomentum
    have hclip := hcfg.clipNorm
    obtain ⟨rounds, hrounds⟩ := exists_nat_gt (|bound| / (2 * cfg.clipNorm))
    obtain ⟨s, hs, hpulled⟩ := reaches_pulled hcfg (not_lt.mp hmomentum) rounds
    have hfar : |bound| < coordinate (s.optimizer.velocity.getD []) 0 := by
      rw [div_lt_iff₀ (by positivity)] at hrounds
      have hway := hpulled.velocity
      linarith
    cases hvelocity : s.optimizer.velocity with
    | none =>
      rw [hvelocity] at hfar
      exact absurd hfar (not_lt.mpr (abs_nonneg bound))
    | some v =>
      rw [hvelocity] at hfar
      have hplace : 0 < v.length := by
        by_contra hnil
        rw [List.length_eq_zero_iff.mp (by omega : v.length = 0)] at hfar
        exact absurd hfar (not_lt.mpr (abs_nonneg bound))
      have hslow := (hbound s hs v hvelocity 0 hplace).2
      have hlarge : |bound| < coordinate v 0 := hfar
      linarith [le_abs_self bound]
  · intro hmomentum
    exact ⟨_, fun s h => run_slower hcfg hmomentum h⟩

def momentumConfig (serverMomentum clipNorm : ℝ) : ServerConfig ℝ :=
  { privateConfig with
    serverMomentum := serverMomentum
    clipNorm := clipNorm
    requiredClients := 1
    targetRounds := 100
    defaultAssignmentTtlSeconds := 120
    auditEventRetention := 2000
    adminPeerIdentities := ["pqfl-admin"]
    workerPeerIdentities := ["pqfl-worker"]
    address := "0.0.0.0:50051"
    keyPath := "data/master.key"
    payloadKeyPath := "data/payload.key"
    stateStorePath := "data/state.json"
    learningRate := 1
    batchSize := 32 }

theorem momentumConfig_valid {serverMomentum clipNorm : ℝ} (hmomentum : 0 ≤ serverMomentum)
    (hclip : 0 ≤ clipNorm) : validate (momentumConfig serverMomentum clipNorm) = .ok () := by
  rw [validate_ok]
  simp only [requirements, List.forall_mem_cons, Bool.and_eq_true, positive_exact,
    nonnegative_exact, lt_one_exact, lt_half_exact]
  norm_num [momentumConfig, privateConfig, hmomentum, hclip]
  decide

/-- With momentum 0.9 the velocity stays within 20; with momentum one, which
`Validate` accepts, it has no bound. -/
theorem velocity_bounded_examples :
    (∀ s, Reaches (step (momentumConfig (9 / 10) 1))
      (Permitted (Clipped (momentumConfig (9 / 10) 1))) noModels s → SlowerThan 20 s) ∧
    ¬ ∃ bound, ∀ s,
      Reaches (step (momentumConfig 1 1)) (Permitted (Clipped (momentumConfig 1 1))) noModels s →
      SlowerThan bound s := by
  constructor
  · have hbound := (velocity_bounded_iff (momentumConfig_valid (by norm_num : (0 : ℝ) ≤ 9 / 10)
      zero_le_one) one_pos).2.2 (by norm_num [momentumConfig])
    have htwenty : 2 * (momentumConfig (9 / 10) 1).clipNorm /
        (1 - (momentumConfig (9 / 10) 1).serverMomentum) = 20 := by
      norm_num [momentumConfig]
    rwa [htwenty] at hbound
  · rw [(velocity_bounded_iff (momentumConfig_valid zero_le_one zero_le_one) one_pos).2.1]
    exact lt_irrefl 1

end

end PqFl.MomentumBounds
