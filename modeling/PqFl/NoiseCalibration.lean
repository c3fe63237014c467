import Mathlib.Analysis.SpecialFunctions.Log.Basic
import PqFl.ClippedVectors

/-!
# Whether the noise is calibrated

The noise of `ApplyDifferentialPrivacy` has the deviation of the Gaussian
mechanism for an aggregate which one client moves by at most the clip norm over
the square root of the number of clients. How far one client can move the
aggregate of `AggFedAvg` depends on its share of the samples.
-/

set_option autoImplicit false

namespace PqFl.NoiseCalibration
open PqFl.Aggregation PqFl.Buffer PqFl.ExactArithmetic PqFl.ListVectors PqFl.SampleWeights
open PqFl.ServerOptimizer PqFl.ClippedVectors

noncomputable section

variable {n : ℕ} {clients : WeightMap ℝ} {sizes : SizeMap} {c : String}

def ownVector (c : String) (v : List ℝ) (e : (_ : String) × List ℝ) : (_ : String) × List ℝ :=
  if e.1 = c then ⟨e.1, v⟩ else e

theorem ownVector_fst (c : String) (v : List ℝ) (e : (_ : String) × List ℝ) :
    (ownVector c v e).1 = e.1 := by
  unfold ownVector
  split
  · rfl
  · rfl

def submitted (clients : WeightMap ℝ) (c : String) (v : List ℝ) : WeightMap ℝ where
  entries := clients.entries.map (ownVector c v)
  nodupKeys := by
    have hkeys : (clients.entries.map (ownVector c v)).keys = clients.entries.keys := by
      unfold List.keys
      rw [List.map_map]
      exact List.map_congr_left (fun e _ => ownVector_fst c v e)
    unfold List.NodupKeys
    rw [hkeys]
    exact clients.nodupKeys

theorem submitted_keys (clients : WeightMap ℝ) (c : String) (v : List ℝ) :
    (submitted clients c v).keys = clients.keys := by
  unfold AList.keys List.keys submitted
  rw [List.map_map]
  exact List.map_congr_left (fun e _ => ownVector_fst c v e)

theorem submitted_admitted (h : Admitted clients sizes n) {v : List ℝ} (hv : v.length = n) :
    Admitted (submitted clients c v) sizes n where
  nonempty := by
    intro hnil
    exact h.nonempty (List.map_eq_nil_iff.mp hnil)
  dimensions := by
    intro e he
    obtain ⟨x, hx, rfl⟩ := List.mem_map.mp he
    unfold ownVector
    split
    · exact hv
    · exact h.dimensions x hx
  clients := by
    rw [submitted_keys]
    exact h.clients
  sizes := h.sizes

theorem sum_ownVector (c : String) (u v : List ℝ) (sizes : SizeMap) (d : ℕ)
    (entries : List ((_ : String) × List ℝ)) :
    ((entries.map (ownVector c u)).map (fun e => (sampleSize sizes e.1 : ℝ) * coordinate e.2 d)).sum -
      ((entries.map (ownVector c v)).map
        (fun e => (sampleSize sizes e.1 : ℝ) * coordinate e.2 d)).sum =
      entries.keys.count c * (sampleSize sizes c * (coordinate u d - coordinate v d)) := by
  induction entries with
  | nil => simp
  | cons e entries ih =>
    simp only [List.map_cons, List.sum_cons, List.keys_cons]
    by_cases hc : e.1 = c
    · have hown : ∀ w, ownVector c w e = ⟨c, w⟩ := by
        intro w
        rw [ownVector, if_pos hc, hc]
      rw [hown, hown, hc, List.count_cons_self, Nat.cast_add, Nat.cast_one, add_mul, ← ih]
      ring
    · have hother : ∀ w, ownVector c w e = e := fun w => if_neg hc
      rw [hother, hother, List.count_cons_of_ne hc, ← ih]
      ring

def share (sizes : SizeMap) (c : String) : ℝ := sampleSize sizes c / sampleCount sizes

theorem aggFedAvg_sub (h : Admitted clients sizes n) (hc : c ∈ clients)
    (hcount : sampleCount sizes < 2^31) (overflow : ℕ → ℝ) {u v : List ℝ} (hu : u.length = n)
    (hv : v.length = n) :
    vector n (aggFedAvg overflow (submitted clients c u) sizes) -
        vector n (aggFedAvg overflow (submitted clients c v) sizes) =
      share sizes c • (vector n u - vector n v) := by
  have hmean := fun {w : List ℝ} (hw : w.length = n) =>
    aggFedAvg_coordinate (submitted_admitted (c := c) h hw) hcount overflow
  have hone : clients.entries.keys.count c = 1 :=
    List.count_eq_one_of_mem clients.nodupKeys (AList.mem_keys.mp hc)
  ext i
  have hdifference := sum_ownVector c u v sizes i.val clients.entries
  rw [hone, Nat.cast_one, one_mul] at hdifference
  show coordinate (aggFedAvg overflow (submitted clients c u) sizes) i -
      coordinate (aggFedAvg overflow (submitted clients c v) sizes) i =
    share sizes c * (coordinate u i - coordinate v i)
  rw [hmean hu i i.isLt, hmean hv i i.isLt, div_sub_div_same]
  show ((List.map _ (clients.entries.map (ownVector c u))).sum -
    (List.map _ (clients.entries.map (ownVector c v))).sum) / _ = _
  rw [hdifference, share]
  ring

/-- The aggregate, with momentum and before the noise, when the client submits this. -/
def released (cfg : AggregationConfig ℝ) (x : Optimizer ℝ) (clients : WeightMap ℝ)
    (sizes : SizeMap) (overflow : ℕ → ℝ) (c : String) (u : List ℝ) : List ℝ :=
  (unnoised cfg x (submitted clients c (clipWeights u cfg.clipNorm)) sizes overflow).2

/-- The distances between what is released for two submissions of the client. -/
def moves (cfg : AggregationConfig ℝ) (x : Optimizer ℝ) (clients : WeightMap ℝ) (sizes : SizeMap)
    (overflow : ℕ → ℝ) (c : String) (n : ℕ) : Set ℝ :=
  {r | ∃ u v : List ℝ, u.length = n ∧ v.length = n ∧
    r = ‖vector n (released cfg x clients sizes overflow c u) -
      vector n (released cfg x clients sizes overflow c v)‖}

theorem released_sub {cfg : AggregationConfig ℝ} (hstrategy : cfg.aggregationStrategy = "fedavg")
    (x : Optimizer ℝ) (h : Admitted clients sizes n) (hc : c ∈ clients)
    (hcount : sampleCount sizes < 2^31) (overflow : ℕ → ℝ) {u v : List ℝ} (hu : u.length = n)
    (hv : v.length = n) :
    vector n (released cfg x clients sizes overflow c u) -
        vector n (released cfg x clients sizes overflow c v) =
      share sizes c •
        (vector n (clipWeights u cfg.clipNorm) - vector n (clipWeights v cfg.clipNorm)) := by
  have hclipped : ∀ {w : List ℝ}, w.length = n → (clipWeights w cfg.clipNorm).length = n :=
    fun hw => (clipWeights_length _ _).trans hw
  have haverage : ∀ w, unnoised cfg x (submitted clients c w) sizes overflow =
      smoothed cfg.serverMomentum x (aggFedAvg overflow (submitted clients c w) sizes) := by
    intro w
    rw [unnoised, hstrategy]
    rfl
  have hlength : ∀ {w : List ℝ}, w.length = n →
      (aggFedAvg overflow (submitted clients c w) sizes).length = n := by
    intro w hw
    have hadmitted := submitted_admitted (c := c) h hw
    exact aggFedAvg_length hadmitted.nonempty hadmitted.dimensions overflow sizes
  unfold released
  rw [haverage, haverage, smoothed_sub _ _ (hlength (hclipped hu)) (hlength (hclipped hv)),
    aggFedAvg_sub h hc hcount overflow (hclipped hu) (hclipped hv)]

theorem share_nonneg (h : Admitted clients sizes n) (c : String) : 0 ≤ share sizes c := by
  have hsize : (0 : ℝ) ≤ sampleSize sizes c := by
    exact_mod_cast (sampleSize_pos h c).trans' zero_le_one
  have hcount : (0 : ℝ) ≤ sampleCount sizes := by
    exact_mod_cast (sampleCount_pos h).trans' zero_le_one
  exact div_nonneg hsize hcount

theorem greatest_move {cfg : AggregationConfig ℝ} (hstrategy : cfg.aggregationStrategy = "fedavg")
    (hclip : 0 < cfg.clipNorm) (x : Optimizer ℝ) (h : Admitted clients sizes n) (hn : 0 < n)
    (hc : c ∈ clients) (hcount : sampleCount sizes < 2^31) (overflow : ℕ → ℝ) :
    IsGreatest (moves cfg x clients sizes overflow c n) (2 * cfg.clipNorm * share sizes c) := by
  have hshare := share_nonneg h c
  constructor
  · let far : EuclideanSpace ℝ (Fin n) := EuclideanSpace.single ⟨0, hn⟩ cfg.clipNorm
    have hfar : ‖far‖ = cfg.clipNorm := by
      rw [PiLp.norm_single, Real.norm_of_nonneg hclip.le]
    have hkept : ∀ y : EuclideanSpace ℝ (Fin n), ‖y‖ = cfg.clipNorm →
        vector n (clipWeights (List.ofFn y) cfg.clipNorm) = y := by
      intro y hy
      have hinside : ‖vector n (List.ofFn y)‖ ≤ cfg.clipNorm := by
        rw [vector_ofFn, hy]
      rw [clipWeights_inside List.length_ofFn hclip hinside, vector_ofFn]
    refine ⟨List.ofFn far, List.ofFn (-far), List.length_ofFn, List.length_ofFn, ?_⟩
    rw [released_sub hstrategy x h hc hcount overflow List.length_ofFn List.length_ofFn, hkept far hfar,
      hkept (-far) (by rw [norm_neg, hfar]), sub_neg_eq_add, ← two_smul ℝ far, norm_smul, norm_smul,
      hfar, Real.norm_of_nonneg hshare, Real.norm_two]
    ring
  · rintro r ⟨u, v, hu, hv, rfl⟩
    have hdistance : ‖vector n (clipWeights u cfg.clipNorm) - vector n (clipWeights v cfg.clipNorm)‖ ≤
        2 * cfg.clipNorm := by
      have hnorms := norm_sub_le (vector n (clipWeights u cfg.clipNorm))
        (vector n (clipWeights v cfg.clipNorm))
      have hfirst := norm_clipWeights hu hclip
      have hsecond := norm_clipWeights hv hclip
      linarith
    rw [released_sub hstrategy x h hc hcount overflow hu hv, norm_smul, Real.norm_of_nonneg hshare,
      mul_comm]
    exact mul_le_mul_of_nonneg_right hdistance hshare

/-- What the Gaussian mechanism takes for an aggregate that can be moved so far. -/
def gaussianDeviation (move epsilon delta : ℝ) : ℝ :=
  move * √ ((2 : ℤ) * Real.log (1.25 / delta)) / epsilon

theorem noiseSigma_exact (clipNorm epsilon delta : ℝ) (numClients : ℕ) :
    noiseSigma Real.log clipNorm epsilon delta numClients =
      (clipNorm * √ (2 * Real.log (1.25 / delta))) / (epsilon * √ numClients) := by
  show (clipNorm * √ (((2 : ℤ) : ℝ) * Real.log (((5 : ℤ) : ℝ) / ((4 : ℤ) : ℝ) / delta))) /
    (epsilon * √ (((numClients : ℤ) : ℝ))) = _
  norm_num

theorem gaussianDeviation_le_iff {move clipNorm epsilon delta : ℝ} (hepsilon : 0 < epsilon)
    (hdelta : 0 < delta ∧ delta < 1) {numClients : ℕ} (hclients : 0 < numClients) :
    gaussianDeviation move epsilon delta ≤ noiseSigma Real.log clipNorm epsilon delta numClients ↔
      move * √ numClients ≤ clipNorm := by
  have hlog : 0 < Real.log (1.25 / delta) := by
    apply Real.log_pos
    rw [lt_div_iff₀ hdelta.1]
    linarith
  have hfactor : 0 < √ (2 * Real.log (1.25 / delta)) := Real.sqrt_pos.mpr (by linarith)
  have hroot : 0 < √ (numClients : ℝ) := Real.sqrt_pos.mpr (by exact_mod_cast hclients)
  rw [gaussianDeviation, noiseSigma_exact, Int.cast_ofNat]
  rw [div_le_div_iff₀ hepsilon (by positivity)]
  have hleft : move * √ (2 * Real.log (1.25 / delta)) * (epsilon * √ (numClients : ℝ)) =
      (√ (2 * Real.log (1.25 / delta)) * epsilon) * (move * √ (numClients : ℝ)) := by ring
  have hright : clipNorm * √ (2 * Real.log (1.25 / delta)) * epsilon =
      (√ (2 * Real.log (1.25 / delta)) * epsilon) * clipNorm := by ring
  rw [hleft, hright]
  exact mul_le_mul_iff_right₀ (by positivity)

/-- The noise is enough for every move of the client. -/
def Calibrated (cfg : AggregationConfig ℝ) (x : Optimizer ℝ) (clients : WeightMap ℝ)
    (sizes : SizeMap) (overflow : ℕ → ℝ) (c : String) (n : ℕ) : Prop :=
  ∀ r ∈ moves cfg x clients sizes overflow c n, gaussianDeviation r cfg.dpEpsilon cfg.dpDelta ≤
    noiseSigma Real.log cfg.clipNorm cfg.dpEpsilon cfg.dpDelta clients.entries.length

theorem share_small_iff (h : Admitted clients sizes n) (c : String) :
    2 * share sizes c * √ clients.entries.length ≤ 1 ↔
      4 * sampleSize sizes c ^ 2 * clients.entries.length ≤ sampleCount sizes ^ 2 := by
  have hcount : (0 : ℝ) < sampleCount sizes := by
    exact_mod_cast zero_lt_one.trans_le (sampleCount_pos h)
  have hshare := share_nonneg h c
  have hroot := Real.sqrt_nonneg (clients.entries.length : ℝ)
  have hsquare : (2 * share sizes c * √ clients.entries.length) ^ 2 =
      4 * (sampleSize sizes c : ℝ) ^ 2 * clients.entries.length / (sampleCount sizes : ℝ) ^ 2 := by
    rw [mul_pow, Real.sq_sqrt (Nat.cast_nonneg _), share]
    ring
  rw [← sq_le_sq₀ (by positivity) zero_le_one, hsquare, one_pow, div_le_one (by positivity)]
  exact_mod_cast Iff.rfl

theorem equal_sizes_iff (h : Admitted clients sizes n)
    (hequal : ∀ e ∈ clients.entries, sampleSize sizes e.1 = sampleSize sizes c) :
    4 * sampleSize sizes c ^ 2 * clients.entries.length ≤ sampleCount sizes ^ 2 ↔
      4 ≤ clients.entries.length := by
  have hsize := sampleSize_pos h c
  have hcount : sampleCount sizes = clients.entries.length * sampleSize sizes c := by
    rw [sampleCount_eq h, List.map_congr_left hequal, List.map_const', List.sum_replicate,
      nsmul_eq_mul]
  have hpositive : 0 < (clients.entries.length : ℤ) * sampleSize sizes c ^ 2 := by
    have hlength := List.length_pos_iff.mpr h.nonempty
    positivity
  have hleft : 4 * sampleSize sizes c ^ 2 * (clients.entries.length : ℤ) =
      4 * ((clients.entries.length : ℤ) * sampleSize sizes c ^ 2) := by ring
  have hright : sampleCount sizes ^ 2 = (clients.entries.length : ℤ) *
      ((clients.entries.length : ℤ) * sampleSize sizes c ^ 2) := by
    rw [hcount]
    ring
  rw [hleft, hright, mul_le_mul_iff_of_pos_right hpositive]
  omega

/-- The noise is enough for a client exactly when the client has at most the part
`1 / (2 √n)` of the samples; for clients with as many samples each that is from four
clients on. -/
theorem noise_calibrated_iff {cfg : AggregationConfig ℝ}
    (hstrategy : cfg.aggregationStrategy = "fedavg") (hclip : 0 < cfg.clipNorm)
    (hepsilon : 0 < cfg.dpEpsilon) (hdelta : 0 < cfg.dpDelta ∧ cfg.dpDelta < 1)
    (x : Optimizer ℝ) (h : Admitted clients sizes n) (hn : 0 < n)
    (hcount : sampleCount sizes < 2^31) (hc : c ∈ clients) (overflow : ℕ → ℝ) :
    IsGreatest (moves cfg x clients sizes overflow c n) (2 * cfg.clipNorm * share sizes c) ∧
    (Calibrated cfg x clients sizes overflow c n ↔
      4 * sampleSize sizes c ^ 2 * clients.entries.length ≤ sampleCount sizes ^ 2) ∧
    ((∀ e ∈ clients.entries, sampleSize sizes e.1 = sampleSize sizes c) →
      (Calibrated cfg x clients sizes overflow c n ↔ 4 ≤ clients.entries.length)) := by
  have hgreatest := greatest_move hstrategy hclip x h hn hc hcount overflow
  have hlength := List.length_pos_iff.mpr h.nonempty
  have hcalibrated : Calibrated cfg x clients sizes overflow c n ↔
      4 * sampleSize sizes c ^ 2 * clients.entries.length ≤ sampleCount sizes ^ 2 := by
    have hworst : Calibrated cfg x clients sizes overflow c n ↔
        2 * cfg.clipNorm * share sizes c * √ clients.entries.length ≤ cfg.clipNorm := by
      unfold Calibrated
      constructor
      · intro hall
        exact (gaussianDeviation_le_iff hepsilon hdelta hlength).mp (hall _ hgreatest.1)
      · intro hmost r hr
        rw [gaussianDeviation_le_iff hepsilon hdelta hlength]
        exact (mul_le_mul_of_nonneg_right (hgreatest.2 hr) (Real.sqrt_nonneg _)).trans hmost
    have hscaled : 2 * cfg.clipNorm * share sizes c * √ clients.entries.length =
        cfg.clipNorm * (2 * share sizes c * √ clients.entries.length) := by ring
    rw [hworst, ← share_small_iff h, hscaled, mul_le_iff_le_one_right hclip]
  refine ⟨hgreatest, hcalibrated, ?_⟩
  intro hequal
  rw [hcalibrated, equal_sizes_iff h hequal]

def privateConfig : AggregationConfig ℝ where
  aggregationStrategy := "fedavg"
  clipNorm := 1
  dpEpsilon := 1
  dpDelta := 1 / 100000
  trimmedMeanBeta := 0
  serverMomentum := 0
  checkpointDir := "models"

/-- With 10, 20 and 30 samples the noise is enough for the first client, but not for
the last one, which has half of them. -/
theorem noise_calibrated_agreeing :
    Calibrated privateConfig ⟨none, none⟩ agreeing (sizesOf 10 20 30) (fun _ => 0) "a" 1 ∧
      ¬ Calibrated privateConfig ⟨none, none⟩ agreeing (sizesOf 10 20 30) (fun _ => 0) "c" 1 := by
  have hadmitted : Admitted agreeing (sizesOf 10 20 30) 1 :=
    agreeing_admitted (by omega) (by omega) (by omega)
  have hcount : sampleCount (sizesOf 10 20 30) = 60 := by decide
  have hsmall : sampleCount (sizesOf 10 20 30) < 2^31 := by
    rw [hcount]
    omega
  have hdelta : 0 < privateConfig.dpDelta ∧ privateConfig.dpDelta < 1 := by
    norm_num [privateConfig]
  have hfirst : sampleSize (sizesOf 10 20 30) "a" = 10 := by decide
  have hlast : sampleSize (sizesOf 10 20 30) "c" = 30 := by decide
  constructor
  · rw [(noise_calibrated_iff rfl one_pos one_pos hdelta _ hadmitted one_pos hsmall
      (by simp [agreeing, AList.mem_keys, AList.keys, List.keys]) _).2.1, hfirst, hcount]
    decide
  · rw [(noise_calibrated_iff rfl one_pos one_pos hdelta _ hadmitted one_pos hsmall
      (by simp [agreeing, AList.mem_keys, AList.keys, List.keys]) _).2.1, hlast, hcount]
    decide

end

end PqFl.NoiseCalibration
