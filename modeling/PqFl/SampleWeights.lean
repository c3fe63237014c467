import PqFl.ExactArithmetic

/-!
# Federated averaging as a weighted mean

The clients' vectors are weighted by their dataset sizes. The sum of the sizes
is an `int`: from 2^31 on it overflows, and nothing is promised of the result.
-/

set_option autoImplicit false

namespace PqFl.SampleWeights
open PqFl.Aggregation PqFl.ExactArithmetic

noncomputable section

def coordinate (v : List ℝ) (d : ℕ) : ℝ := (v[d]?).getD 0

def sampleSize (sizes : SizeMap) (client : String) : ℤ := (sizes.lookup client).getD 1

/-- The sum of the sizes, as an integer. -/
def sampleCount (sizes : SizeMap) : ℤ := (sizes.entries.map (·.2)).sum

def weightedSum (weights : WeightMap ℝ) (sizes : SizeMap) (d : ℕ) : ℝ :=
  (weights.entries.map (fun e => (sampleSize sizes e.1 : ℝ) * coordinate e.2 d)).sum

/-- Vectors of one dimension with the sizes that a submission may give. -/
structure Admitted (weights : WeightMap ℝ) (sizes : SizeMap) (dimension : ℕ) : Prop where
  nonempty : weights.entries ≠ []
  dimensions : ∀ e ∈ weights.entries, e.2.length = dimension
  clients : sizes.keys.Perm weights.keys
  sizes : ∀ e ∈ sizes.entries, 1 ≤ e.2 ∧ e.2 < 2^31

/-- Every coordinate is the mean of the submitted values weighted by the sizes,
and lies between the smallest and the largest of them. -/
structure WeightedMean (weights : WeightMap ℝ) (sizes : SizeMap) (dimension : ℕ)
    (result : List ℝ) : Prop where
  length : result.length = dimension
  mean : ∀ d < dimension, coordinate result d = weightedSum weights sizes d / sampleCount sizes
  between : ∀ d < dimension, ∀ low high,
    (∀ e ∈ weights.entries, low ≤ coordinate e.2 d ∧ coordinate e.2 d ≤ high) →
      low ≤ coordinate result d ∧ coordinate result d ≤ high

theorem foldlM_total (l : List ((_ : String) × ℤ)) (hl : ∀ e ∈ l, 1 ≤ e.2) {start : ℤ}
    (hstart : start < 2^31) :
    l.foldlM (fun total entry => if total + max 1 entry.2 < 2^31 then
      some (total + max 1 entry.2) else none) start =
        if start + (l.map (·.2)).sum < 2^31 then some (start + (l.map (·.2)).sum) else none := by
  induction l generalizing start with
  | nil => rw [List.map_nil, List.sum_nil, add_zero, if_pos hstart, List.foldlM_nil]; rfl
  | cons e l ih =>
    have he := hl e List.mem_cons_self
    have hrest := fun x hx => hl x (List.mem_cons_of_mem e hx)
    have hmax : max 1 e.2 = e.2 := by omega
    rw [List.foldlM_cons, List.map_cons, List.sum_cons, ← add_assoc, hmax]
    by_cases hnext : start + e.2 < 2^31
    · rw [if_pos hnext]
      exact ih hrest hnext
    · have hsum : 0 ≤ (l.map (·.2)).sum := by
        apply List.sum_nonneg
        intro x hx
        obtain ⟨y, hy, rfl⟩ := List.mem_map.mp hx
        have := hrest y hy
        omega
      rw [if_neg hnext, if_neg (by omega)]
      rfl

theorem totalSamples_of_positive {sizes : SizeMap} (h : ∀ e ∈ sizes.entries, 1 ≤ e.2) :
    totalSamples sizes =
      if sampleCount sizes < 2^31 then some (sampleCount sizes) else none := by
  have hfold := foldlM_total sizes.entries h (by omega : (0 : ℤ) < 2^31)
  rw [zero_add] at hfold
  exact hfold

theorem totalSamples_of_count {weights : WeightMap ℝ} {sizes : SizeMap} {dimension : ℕ}
    (h : Admitted weights sizes dimension) (hcount : sampleCount sizes < 2^31) :
    totalSamples sizes = some (sampleCount sizes) := by
  rw [totalSamples_of_positive (fun e he => (h.sizes e he).1), if_pos hcount]

theorem lookup_of_mem {sizes : SizeMap} {e : (_ : String) × ℤ} (he : e ∈ sizes.entries) :
    sampleSize sizes e.1 = e.2 := by
  rw [sampleSize, AList.mem_lookup_iff.mpr he]
  rfl

theorem sampleCount_of_keys {sizes : SizeMap} {clients : List String}
    (h : sizes.keys.Perm clients) : sampleCount sizes = (clients.map (sampleSize sizes)).sum := by
  have hperm := (h.map (sampleSize sizes)).sum_eq
  have hkeys : sizes.keys.map (sampleSize sizes) = sizes.entries.map (·.2) := by
    unfold AList.keys List.keys
    rw [List.map_map]
    exact List.map_congr_left (fun e he => lookup_of_mem he)
  rw [hkeys] at hperm
  exact hperm

theorem sampleCount_eq {weights : WeightMap ℝ} {sizes : SizeMap} {dimension : ℕ}
    (h : Admitted weights sizes dimension) :
    sampleCount sizes = (weights.entries.map (fun e => sampleSize sizes e.1)).sum := by
  have hclients := sampleCount_of_keys h.clients
  unfold AList.keys List.keys at hclients
  rw [List.map_map] at hclients
  exact hclients

theorem sampleSize_pos {weights : WeightMap ℝ} {sizes : SizeMap} {dimension : ℕ}
    (h : Admitted weights sizes dimension) (client : String) : 1 ≤ sampleSize sizes client := by
  unfold sampleSize
  cases hfound : sizes.lookup client with
  | none => exact le_rfl
  | some n => exact (h.sizes ⟨client, n⟩ (AList.mem_lookup_iff.mp hfound)).1

theorem sampleCount_pos {weights : WeightMap ℝ} {sizes : SizeMap} {dimension : ℕ}
    (h : Admitted weights sizes dimension) : 1 ≤ sampleCount sizes := by
  rw [sampleCount_eq h]
  obtain ⟨e, rest, hentries⟩ := List.exists_cons_of_ne_nil h.nonempty
  rw [hentries, List.map_cons, List.sum_cons]
  have hrest : 0 ≤ (rest.map (fun e => sampleSize sizes e.1)).sum := by
    apply List.sum_nonneg
    intro x hx
    obtain ⟨y, -, rfl⟩ := List.mem_map.mp hx
    have := sampleSize_pos h y.1
    omega
  have := sampleSize_pos h e.1
  omega

theorem foldl_scaled (factor : (_ : String) × List ℝ → ℝ) {dimension : ℕ}
    (entries : List ((_ : String) × List ℝ)) (hentries : ∀ e ∈ entries, e.2.length = dimension)
    (start : List ℝ) (hstart : start.length = dimension) :
    (entries.foldl (fun result e => List.zipWith (fun r value => r + value * factor e) result e.2)
      start).length = dimension ∧
    ∀ d < dimension, coordinate (entries.foldl (fun result e =>
      List.zipWith (fun r value => r + value * factor e) result e.2) start) d =
        coordinate start d + (entries.map (fun e => coordinate e.2 d * factor e)).sum := by
  induction entries generalizing start with
  | nil =>
    refine ⟨hstart, fun d hd => ?_⟩
    simp
  | cons e entries ih =>
    have he := hentries e List.mem_cons_self
    have hnext : (List.zipWith (fun r value => r + value * factor e) start e.2).length =
        dimension := by
      rw [List.length_zipWith, hstart, he, min_self]
    obtain ⟨hlength, hvalues⟩ := ih (fun x hx => hentries x (List.mem_cons_of_mem _ hx)) _ hnext
    refine ⟨hlength, fun d hd => ?_⟩
    have hd' : d < start.length := by omega
    have hde : d < e.2.length := by omega
    rw [List.foldl_cons, hvalues d hd, List.map_cons, List.sum_cons]
    unfold coordinate
    rw [List.getElem?_zipWith, List.getElem?_eq_getElem hd', List.getElem?_eq_getElem hde]
    simp only [Option.getD_some]
    ring

theorem dimension_eq {weights : WeightMap ℝ} {sizes : SizeMap} {n : ℕ}
    (h : Admitted weights sizes n) : Aggregation.dimension weights = n := by
  obtain ⟨e, rest, hentries⟩ := List.exists_cons_of_ne_nil h.nonempty
  unfold Aggregation.dimension
  rw [hentries]
  exact h.dimensions e (hentries ▸ List.mem_cons_self)

/-- Where the sum does not overflow, the factors are the shares of the clients. -/
theorem aggFedAvg_coordinate {weights : WeightMap ℝ} {sizes : SizeMap} {dimension : ℕ}
    (h : Admitted weights sizes dimension) (hcount : sampleCount sizes < 2^31)
    (overflow : ℕ → ℝ) : ∀ d < dimension, coordinate (aggFedAvg overflow weights sizes) d =
      weightedSum weights sizes d / sampleCount sizes := by
  have hpos : sampleCount sizes > 0 := by
    have := sampleCount_pos h
    omega
  let factor := fun e : (_ : String) × List ℝ =>
    ((max 1 (sampleSize sizes e.1) : ℤ) : ℝ) / (sampleCount sizes : ℝ)
  obtain ⟨-, hvalues⟩ := foldl_scaled factor weights.entries h.dimensions
    (List.replicate dimension ((0 : ℤ) : ℝ)) List.length_replicate
  have hfold : aggFedAvg overflow weights sizes = weights.entries.foldl (fun result e =>
      List.zipWith (fun r value => r + value * factor e) result e.2)
      (List.replicate dimension ((0 : ℤ) : ℝ)) := by
    unfold aggFedAvg
    rw [totalSamples_of_count h hcount, dimension_eq h]
    simp only [if_pos hpos]
    rfl
  rw [hfold]
  intro d hd
  have hstart : coordinate (List.replicate dimension ((0 : ℤ) : ℝ)) d = 0 := by
    unfold coordinate
    rw [List.getElem?_replicate_of_lt hd]
    simp
  rw [hvalues d hd, hstart, zero_add, weightedSum, div_eq_mul_inv, ← List.sum_map_mul_right]
  congr 1
  apply List.map_congr_left
  intro e _
  have hmax : max 1 (sampleSize sizes e.1) = sampleSize sizes e.1 := by
    have := sampleSize_pos h e.1
    omega
  simp only [factor, hmax]
  ring

theorem aggFedAvg_of_overflow {weights : WeightMap ℝ} {sizes : SizeMap} {dimension : ℕ}
    (h : Admitted weights sizes dimension) (hcount : ¬ sampleCount sizes < 2^31)
    (overflow : ℕ → ℝ) :
    aggFedAvg overflow weights sizes = (List.range dimension).map overflow := by
  unfold aggFedAvg
  rw [totalSamples_of_positive (fun e he => (h.sizes e he).1), if_neg hcount, dimension_eq h]

theorem weightedSum_between {weights : WeightMap ℝ} {sizes : SizeMap} {dimension : ℕ}
    (h : Admitted weights sizes dimension) {d : ℕ} {low high : ℝ}
    (hbounds : ∀ e ∈ weights.entries, low ≤ coordinate e.2 d ∧ coordinate e.2 d ≤ high) :
    low * sampleCount sizes ≤ weightedSum weights sizes d ∧
      weightedSum weights sizes d ≤ high * sampleCount sizes := by
  have hcast : ((sampleCount sizes : ℤ) : ℝ) =
      (weights.entries.map (fun e => (sampleSize sizes e.1 : ℝ))).sum := by
    rw [sampleCount_eq h]
    induction weights.entries with
    | nil => simp
    | cons e rest ih => simp only [List.map_cons, List.sum_cons, Int.cast_add, ih]
  have hsize : ∀ client, (0 : ℝ) ≤ sampleSize sizes client := by
    intro client
    have := sampleSize_pos h client
    exact_mod_cast (by omega : (0 : ℤ) ≤ sampleSize sizes client)
  rw [hcast, weightedSum, ← List.sum_map_mul_left, ← List.sum_map_mul_left]
  constructor
  · apply List.sum_le_sum
    intro e he
    rw [mul_comm]
    exact mul_le_mul_of_nonneg_left (hbounds e he).1 (hsize e.1)
  · apply List.sum_le_sum
    intro e he
    rw [mul_comm high]
    exact mul_le_mul_of_nonneg_left (hbounds e he).2 (hsize e.1)

theorem weightedMean_of_mean {weights : WeightMap ℝ} {sizes : SizeMap} {dimension : ℕ}
    (h : Admitted weights sizes dimension) {result : List ℝ} (hlength : result.length = dimension)
    (hmean : ∀ d < dimension,
      coordinate result d = weightedSum weights sizes d / sampleCount sizes) :
    WeightedMean weights sizes dimension result := by
  have hcount : (0 : ℝ) < sampleCount sizes := by
    have := sampleCount_pos h
    exact_mod_cast (by omega : (0 : ℤ) < sampleCount sizes)
  refine ⟨hlength, hmean, fun d hd low high hbounds => ?_⟩
  obtain ⟨hlow, hhigh⟩ := weightedSum_between h hbounds
  rw [hmean d hd]
  exact ⟨(le_div_iff₀ hcount).mpr hlow, (div_le_iff₀ hcount).mpr hhigh⟩

theorem aggFedAvg_weightedMean {weights : WeightMap ℝ} {sizes : SizeMap} {dimension : ℕ}
    (h : Admitted weights sizes dimension) (hcount : sampleCount sizes < 2^31)
    (overflow : ℕ → ℝ) :
    WeightedMean weights sizes dimension (aggFedAvg overflow weights sizes) :=
  weightedMean_of_mean h (aggFedAvg_length h.nonempty h.dimensions overflow sizes)
    (aggFedAvg_coordinate h hcount overflow)

/-- The result is the weighted mean, whatever an overflow gives, exactly when the
sizes add up to less than 2^31. -/
theorem aggFedAvg_mean_iff {weights : WeightMap ℝ} {sizes : SizeMap} {dimension : ℕ}
    (h : Admitted weights sizes dimension) (hdimension : 0 < dimension) :
    (∀ overflow, WeightedMean weights sizes dimension (aggFedAvg overflow weights sizes)) ↔
      sampleCount sizes < 2^31 := by
  constructor
  · intro hmean
    by_contra hcount
    -- an overflow may give any value, so also one more than the mean
    have hbad := (hmean (fun d => weightedSum weights sizes d / sampleCount sizes + 1)).mean 0
      hdimension
    rw [aggFedAvg_of_overflow h hcount, coordinate, List.getElem?_map,
      List.getElem?_range hdimension] at hbad
    simp at hbad
  · exact fun hcount overflow => aggFedAvg_weightedMean h hcount overflow

/-- Three clients with the same vector. -/
def agreeing : WeightMap ℝ :=
  ⟨[⟨"a", [1]⟩, ⟨"b", [1]⟩, ⟨"c", [1]⟩], by simp [List.NodupKeys, List.keys]⟩

def sizesOf (a b c : ℤ) : SizeMap :=
  ⟨[⟨"a", a⟩, ⟨"b", b⟩, ⟨"c", c⟩], by simp [List.NodupKeys, List.keys]⟩

theorem agreeing_admitted {a b c : ℤ} (ha : 1 ≤ a ∧ a < 2^31) (hb : 1 ≤ b ∧ b < 2^31)
    (hc : 1 ≤ c ∧ c < 2^31) : Admitted agreeing (sizesOf a b c) 1 where
  nonempty := by simp [agreeing]
  dimensions := by simp [agreeing]
  clients := by
    show (["a", "b", "c"] : List String).Perm ["a", "b", "c"]
    exact .refl _
  sizes := by
    intro e he
    simp only [sizesOf, List.mem_cons, List.not_mem_nil, or_false] at he
    rcases he with rfl | rfl | rfl
    · exact ha
    · exact hb
    · exact hc

theorem aggFedAvg_mean_agreeing : sampleCount (sizesOf 10 20 30) = 60 ∧ ∀ overflow,
    WeightedMean agreeing (sizesOf 10 20 30) 1 (aggFedAvg overflow agreeing (sizesOf 10 20 30)) :=
  ⟨by decide, (aggFedAvg_mean_iff (agreeing_admitted (by omega) (by omega) (by omega))
    one_pos).mpr (by decide)⟩

/-- The sizes add up to 2^32 + 1. Where such a sum wraps around to one, the value
on which all clients agree is multiplied by it. -/
theorem aggFedAvg_wrapped : Admitted agreeing (sizesOf (2^31-1) (2^31-1) 3) 1 ∧
    totalSamples (sizesOf (2^31-1) (2^31-1) 3) = none ∧
    ¬ WeightedMean agreeing (sizesOf (2^31-1) (2^31-1) 3) 1
      (aggFedAvg (fun _ => ((2^32+1 : ℤ) : ℝ)) agreeing (sizesOf (2^31-1) (2^31-1) 3)) := by
  have hadmitted : Admitted agreeing (sizesOf (2^31-1) (2^31-1) 3) 1 :=
    agreeing_admitted (by omega) (by omega) (by omega)
  refine ⟨hadmitted, by decide, fun hmean => ?_⟩
  have hbounds : ∀ e ∈ agreeing.entries, 1 ≤ coordinate e.2 0 ∧ coordinate e.2 0 ≤ 1 := by
    simp [agreeing, coordinate]
  have hresult := (hmean.between 0 (by omega) 1 1 hbounds).2
  rw [aggFedAvg_of_overflow hadmitted (by decide), coordinate, List.getElem?_map,
    List.getElem?_range one_pos] at hresult
  norm_num at hresult

end

end PqFl.SampleWeights
