import PqFl.KrumResilience
import PqFl.SampleWeights

/-!
# The trimmed mean withstands arbitrary values

Of `n` sorted values, `t` are cut off at each end. With at most `t` arbitrary
ones, what is left lies between two values of the other clients, wherever the
arbitrary ones have gone.
-/

set_option autoImplicit false

namespace PqFl.TrimmedMeans
open PqFl.Aggregation PqFl.ExactArithmetic PqFl.SortedSums PqFl.KrumResilience
open PqFl.SampleWeights (coordinate)

noncomputable section

section
variable {l : List ℝ} (hl : l.Pairwise (· ≤ ·))
include hl

theorem le_of_index {i j : ℕ} (hij : i ≤ j) (hi : i < l.length) (hj : j < l.length) :
    l[i] ≤ l[j] := by
  rcases Nat.lt_or_eq_of_le hij with hlt | rfl
  · exact List.pairwise_iff_getElem.mp hl i j hi hj hlt
  · exact le_rfl

theorem countP_from {k : ℕ} (hk : k < l.length) :
    l.length - k ≤ l.countP (fun x => l[k] ≤ x) := by
  have hrest : (l.drop k).countP (fun x => l[k] ≤ x) = (l.drop k).length := by
    apply List.countP_eq_length.mpr
    intro x hx
    obtain ⟨i, hi, rfl⟩ := List.mem_iff_getElem.mp hx
    rw [List.length_drop] at hi
    rw [List.getElem_drop, decide_eq_true_eq]
    exact le_of_index hl (by omega) hk (by omega)
  have hle := (List.drop_sublist k l).countP_le (p := fun x => decide (l[k] ≤ x))
  rw [hrest, List.length_drop] at hle
  exact hle

theorem middle_bounds {n t : ℕ} (hn : l.length = n) (ht : 2 * t < n) (hfirst : t < l.length)
    (hlast : n - t - 1 < l.length) :
    (n - 2 * t : ℕ) * l[t] ≤ ((l.drop t).take (n - 2 * t)).sum ∧
      ((l.drop t).take (n - 2 * t)).sum ≤ (n - 2 * t : ℕ) * l[n - t - 1] := by
  have hlength : ((l.drop t).take (n - 2 * t)).length = n - 2 * t := by
    rw [List.length_take, List.length_drop]
    omega
  have hplace : ∀ x ∈ (l.drop t).take (n - 2 * t), l[t] ≤ x ∧ x ≤ l[n - t - 1] := by
    intro x hx
    obtain ⟨i, hi, rfl⟩ := List.mem_iff_getElem.mp hx
    rw [hlength] at hi
    rw [List.getElem_take, List.getElem_drop]
    constructor
    · exact le_of_index hl (by omega) hfirst (by omega)
    · exact le_of_index hl (by omega) (by omega) hlast
  have hlow := List.card_nsmul_le_sum _ l[t] (fun x hx => (hplace x hx).1)
  have hhigh := List.sum_le_card_nsmul _ l[n - t - 1] (fun x hx => (hplace x hx).2)
  rw [hlength, nsmul_eq_mul] at hlow hhigh
  exact ⟨hlow, hhigh⟩

end

/-- `trim_count` of the source. -/
def trimCount (β : ℝ) (n : ℕ) : ℕ := Arith.floorSize (larger (Arith.ofInt 0) β * Arith.ofInt n)

def trimEnd (β : ℝ) (n : ℕ) : ℕ := if trimCount β n < n then n - trimCount β n else n

theorem trimCount_eq {β : ℝ} (hβ : 0 ≤ β) (n : ℕ) : trimCount β n = ⌊β * n⌋₊ := by
  have hlarger : larger (Arith.ofInt 0 : ℝ) β = β := by
    have hzero : (Arith.ofInt 0 : ℝ) = 0 := Int.cast_zero
    by_cases hpos : 0 < β
    · exact if_pos ((lt_exact _ _).mpr (by rwa [hzero]))
    · have hnot : ¬ Arith.lt (Arith.ofInt 0) β = true := by
        rw [lt_exact, hzero]
        exact hpos
      rw [larger, if_neg hnot, hzero]
      linarith
  have hn : (Arith.ofInt (n : ℤ) : ℝ) = n := Int.cast_natCast n
  rw [trimCount, hlarger, hn]
  rfl

theorem twice_trimCount {β : ℝ} (hβ : 0 ≤ β) (hhalf : β < 1 / 2) {n : ℕ} (hn : 1 ≤ n) :
    2 * trimCount β n < n := by
  have hpos : (1 : ℝ) ≤ n := by exact_mod_cast hn
  have hfloor : (⌊β * n⌋₊ : ℝ) ≤ β * n := Nat.floor_le (by positivity)
  have htwice : 2 * (⌊β * n⌋₊ : ℝ) < n := by nlinarith
  rw [trimCount_eq hβ]
  exact_mod_cast htwice

theorem trimEnd_eq {β : ℝ} (hβ : 0 ≤ β) (hhalf : β < 1 / 2) {n : ℕ} (hn : 1 ≤ n) :
    trimEnd β n = n - trimCount β n ∧ trimCount β n < trimEnd β n := by
  have hless := twice_trimCount hβ hhalf hn
  have hend : trimEnd β n = n - trimCount β n := if_pos (by omega)
  rw [hend]
  omega

def axisOf (weights : WeightMap ℝ) (d : ℕ) : List ℝ :=
  sortFloats (weights.entries.map (fun e => coordinate e.2 d))

theorem axisOf_length (weights : WeightMap ℝ) (d : ℕ) :
    (axisOf weights d).length = weights.entries.length := by
  rw [axisOf, (sortFloats_perm _).length_eq, List.length_map]

theorem countP_axis (weights : WeightMap ℝ) (d : ℕ) (p : ℝ → Bool) :
    (axisOf weights d).countP p = weights.entries.countP (fun e => p (coordinate e.2 d)) := by
  rw [axisOf, (sortFloats_perm _).countP_eq, List.countP_map]
  rfl

theorem exists_outside (weights : WeightMap ℝ) {B : Finset String}
    {p : (_ : String) × List ℝ → Bool} (h : B.card < weights.entries.countP p) :
    ∃ e ∈ weights.entries, e.1 ∉ B ∧ p e = true := by
  by_contra hnone
  push Not at hnone
  have hinside : weights.entries.countP p ≤ weights.entries.countP (fun e => e.1 ∈ B) := by
    apply List.countP_mono_left
    intro e he hp
    rw [decide_eq_true_eq]
    by_contra hout
    exact hnone e he hout hp
  have hcard := countP_clients weights B
  omega

theorem aggTrimmedMean_coordinate {weights : WeightMap ℝ} {β : ℝ} (hβ : 0 ≤ β)
    (hhalf : β < 1 / 2) (hn : 1 ≤ weights.entries.length) {d : ℕ} (hd : d < dimension weights) :
    coordinate (aggTrimmedMean weights β) d =
      (((axisOf weights d).drop (trimCount β weights.entries.length)).take
        (weights.entries.length - 2 * trimCount β weights.entries.length)).sum /
          (weights.entries.length - 2 * trimCount β weights.entries.length : ℕ) := by
  obtain ⟨hend, hless⟩ := trimEnd_eq hβ hhalf hn
  have hspan : trimEnd β weights.entries.length - trimCount β weights.entries.length =
      weights.entries.length - 2 * trimCount β weights.entries.length := by
    omega
  have hvalues : (weights.entries.map (·.2)).map (fun v => (v[d]?).getD (Arith.ofInt 0 : ℝ)) =
      weights.entries.map (fun e => coordinate e.2 d) := by
    rw [List.map_map]
    apply List.map_congr_left
    intro e _
    show (e.2[d]?).getD ((0 : ℤ) : ℝ) = (e.2[d]?).getD 0
    rw [Int.cast_zero]
  have hresult : (aggTrimmedMean weights β)[d]? = some
      (Aggregation.sum (((sortFloats ((weights.entries.map (·.2)).map (fun v =>
        (v[d]?).getD (Arith.ofInt 0 : ℝ)))).drop (trimCount β weights.entries.length)).take
          (trimEnd β weights.entries.length - trimCount β weights.entries.length)) /
        Arith.ofInt ((trimEnd β weights.entries.length -
          trimCount β weights.entries.length : ℕ) : ℤ)) := by
    have hpair : (if trimCount β weights.entries.length < trimEnd β weights.entries.length then
        (trimCount β weights.entries.length, trimEnd β weights.entries.length)
        else (0, weights.entries.length)) =
        (trimCount β weights.entries.length, trimEnd β weights.entries.length) := if_pos hless
    unfold trimEnd trimCount at hpair ⊢
    unfold aggTrimmedMean
    simp only [List.length_map]
    erw [hpair]
    simp only [List.getElem?_map]
    rw [List.getElem?_range hd]
    rfl
  rw [coordinate, hresult, Option.getD_some, hvalues, hspan, sum_exact]
  rfl

theorem exists_below (weights : WeightMap ℝ) (d : ℕ) {B : Finset String} {i : ℕ}
    (hi : i < (axisOf weights d).length) (hB : B.card ≤ i) :
    ∃ e ∈ weights.entries, e.1 ∉ B ∧ coordinate e.2 d ≤ (axisOf weights d)[i] := by
  have hsorted : (axisOf weights d).Pairwise (· ≤ ·) := sortFloats_sorted _
  have hcount := (le_iff_lt_countP hsorted (List.getElem?_eq_getElem hi)).mp (le_refl _)
  rw [countP_axis] at hcount
  obtain ⟨e, he, hout, hle⟩ := exists_outside weights (hB.trans_lt hcount)
  exact ⟨e, he, hout, of_decide_eq_true hle⟩

theorem exists_above (weights : WeightMap ℝ) (d : ℕ) {B : Finset String} {i : ℕ}
    (hi : i < (axisOf weights d).length) (hB : B.card < (axisOf weights d).length - i) :
    ∃ e ∈ weights.entries, e.1 ∉ B ∧ (axisOf weights d)[i] ≤ coordinate e.2 d := by
  have hsorted : (axisOf weights d).Pairwise (· ≤ ·) := sortFloats_sorted _
  have hcount := countP_from hsorted hi
  rw [countP_axis] at hcount
  obtain ⟨e, he, hout, hle⟩ := exists_outside weights (hB.trans_le hcount)
  exact ⟨e, he, hout, of_decide_eq_true hle⟩

def middleMean (weights : WeightMap ℝ) (t d : ℕ) : ℝ :=
  (((axisOf weights d).drop t).take (weights.entries.length - 2 * t)).sum /
    (weights.entries.length - 2 * t : ℕ)

/-- The result of trimming `t` values at each end, between the values of the
clients outside `B`. -/
structure TrimmedWell (weights : WeightMap ℝ) (β : ℝ) (B : Finset String) (t : ℕ)
    (result : List ℝ) : Prop where
  count : trimCount β weights.entries.length = t
  no_fallback : trimCount β weights.entries.length < trimEnd β weights.entries.length
  divisor : trimEnd β weights.entries.length - trimCount β weights.entries.length =
    weights.entries.length - 2 * t
  divisor_pos : 0 < weights.entries.length - 2 * t
  sorted : ∀ d, (axisOf weights d).Pairwise (· ≤ ·) ∧
    (axisOf weights d).Perm (weights.entries.map (fun e => coordinate e.2 d))
  mean : ∀ d < dimension weights, coordinate result d = middleMean weights t d
  between : ∀ d < dimension weights,
    (∃ e ∈ weights.entries, e.1 ∉ B ∧ coordinate e.2 d ≤ coordinate result d) ∧
    ∃ e ∈ weights.entries, e.1 ∉ B ∧ coordinate result d ≤ coordinate e.2 d

/-- The trimmed mean of any vectors of one dimension, for any fraction below a
half and any clients in `B`, no more than are trimmed at one end. -/
theorem aggTrimmedMean_robust {weights : WeightMap ℝ} {dim : ℕ}
    (hn : 1 ≤ weights.entries.length) (hdim : ∀ e ∈ weights.entries, e.2.length = dim)
    {β : ℝ} (hβ : 0 ≤ β) (hhalf : β < 1 / 2) {B : Finset String}
    (hB : B.card ≤ ⌊β * weights.entries.length⌋₊) :
    (aggTrimmedMean weights β).length = dim ∧ dimension weights = dim ∧
    TrimmedWell weights β B ⌊β * weights.entries.length⌋₊ (aggTrimmedMean weights β) := by
  have hne : weights.entries ≠ [] := List.length_pos_iff.mp hn
  have hdimension := Aggregation.dimension_eq hne hdim
  have hcount := trimCount_eq hβ weights.entries.length
  have htwice := twice_trimCount hβ hhalf hn
  obtain ⟨hend, hless⟩ := trimEnd_eq hβ hhalf hn
  have hmean := fun d hd => aggTrimmedMean_coordinate hβ hhalf hn (d := d) hd
  rw [← hcount] at hB ⊢
  generalize ht : trimCount β weights.entries.length = t at *
  have hpos : (0 : ℝ) < (weights.entries.length - 2 * t : ℕ) := by
    exact_mod_cast (by omega : 0 < weights.entries.length - 2 * t)
  have hlength : (aggTrimmedMean weights β).length = dim := by
    unfold aggTrimmedMean
    rw [List.length_map, List.length_range, hdimension]
  refine ⟨hlength, hdimension, ?_⟩
  constructor
  · exact ht
  · rw [ht]
    exact hless
  · rw [ht, hend]
    omega
  · omega
  · intro d
    exact ⟨sortFloats_sorted _, sortFloats_perm _⟩
  · exact hmean
  · intro d hd
    have haxis := axisOf_length weights d
    have hsorted : (axisOf weights d).Pairwise (· ≤ ·) := sortFloats_sorted _
    obtain ⟨hlow, hhigh⟩ := middle_bounds hsorted haxis htwice (by omega) (by omega)
    rw [hmean d hd]
    constructor
    · obtain ⟨e, he, hout, hle⟩ := exists_below weights d (i := t) (by omega) hB
      refine ⟨e, he, hout, hle.trans ?_⟩
      rw [le_div_iff₀' hpos]
      exact hlow
    · obtain ⟨e, he, hout, hle⟩ := exists_above weights d
        (i := weights.entries.length - t - 1) (by omega) (B := B) (by omega)
      refine ⟨e, he, hout, le_trans ?_ hle⟩
      rw [div_le_iff₀' hpos]
      exact hhigh

/-- Of three clients one is arbitrary and a third is trimmed at each end. -/
theorem aggTrimmedMean_threeClients :
    TrimmedWell threeClients (1 / 3) {"c"} 1 (aggTrimmedMean threeClients (1 / 3)) := by
  have hfloor : ⌊(1 / 3 : ℝ) * threeClients.entries.length⌋₊ = 1 := by
    show ⌊(1 / 3 : ℝ) * ((3 : ℕ) : ℝ)⌋₊ = 1
    norm_num
  have hcard : ({"c"} : Finset String).card ≤ ⌊(1 / 3 : ℝ) * threeClients.entries.length⌋₊ := by
    rw [hfloor, Finset.card_singleton]
  have hrobust := aggTrimmedMean_robust (by decide) threeClients_dimension (by norm_num)
    (by norm_num) hcard
  rw [hfloor] at hrobust
  exact hrobust.2.2

end

end PqFl.TrimmedMeans
