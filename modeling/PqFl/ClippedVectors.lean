import PqFl.ListVectors
import PqFl.SampleWeights
import PqFl.ServerOptimizer

/-!
# Clipping and momentum in exact arithmetic

Over the reals clipping is the projection along a ray to the ball of the clip
norm, momentum adds up differences of models, and federated averaging answers a
change of one vector with its share of the change.
-/

set_option autoImplicit false

namespace PqFl.ClippedVectors
open PqFl.Aggregation PqFl.Buffer PqFl.ExactArithmetic PqFl.ListVectors PqFl.SampleWeights
open PqFl.ServerOptimizer

noncomputable section

variable {n : ℕ}

theorem positive_exact (x : ℝ) : isPositive x = true ↔ 0 < x := by
  unfold isPositive
  rw [lt_exact]
  show ((0 : ℤ) : ℝ) < x ↔ 0 < x
  rw [Int.cast_zero]

theorem clipWeights_exact {l : List ℝ} (hl : l.length = n) {clipNorm : ℝ} (hclip : 0 < clipNorm) :
    clipWeights l clipNorm = if clipNorm < ‖vector n l‖ then
      l.map (· * (clipNorm / ‖vector n l‖)) else l := by
  have hnorm : Arith.sqrt (Aggregation.sum (l.map (fun w => w * w))) = ‖vector n l‖ := by
    rw [sum_exact, norm_vector hl]
    rfl
  unfold clipWeights
  dsimp only
  rw [hnorm, (positive_exact clipNorm).mpr hclip, Bool.true_and]
  simp only [lt_exact]

theorem norm_clipWeights {l : List ℝ} (hl : l.length = n) {clipNorm : ℝ} (hclip : 0 < clipNorm) :
    ‖vector n (clipWeights l clipNorm)‖ ≤ clipNorm := by
  rw [clipWeights_exact hl hclip]
  by_cases hlarge : clipNorm < ‖vector n l‖
  · have hpositive : 0 < ‖vector n l‖ := hclip.trans hlarge
    rw [if_pos hlarge, vector_scale _ hl, norm_smul, Real.norm_of_nonneg (by positivity),
      div_mul_cancel₀ _ hpositive.ne']
  · rw [if_neg hlarge]
    exact not_lt.mp hlarge

theorem clipWeights_inside {l : List ℝ} (hl : l.length = n) {clipNorm : ℝ} (hclip : 0 < clipNorm)
    (hinside : ‖vector n l‖ ≤ clipNorm) : clipWeights l clipNorm = l := by
  rw [clipWeights_exact hl hclip, if_neg (not_lt.mpr hinside)]

theorem applyMomentum_exact (β : ℝ) (velocity : List ℝ) {latest result : List ℝ}
    (hlatest : latest.length = n) (hresult : result.length = n) :
    (applyMomentum β velocity latest result).1.length = n ∧
    (applyMomentum β velocity latest result).2.length = n ∧
    vector n (applyMomentum β velocity latest result).1 =
      β • (if velocity.length = n then vector n velocity else 0) +
        (vector n result - vector n latest) ∧
    vector n (applyMomentum β velocity latest result).2 =
      vector n latest + vector n (applyMomentum β velocity latest result).1 := by
  let old : List ℝ := if velocity.length = result.length then velocity
    else List.replicate result.length ((0 : ℤ) : ℝ)
  have hold : old.length = n := by
    by_cases hsame : velocity.length = result.length
    · simp only [old, if_pos hsame, hsame, hresult]
    · simp only [old, if_neg hsame, List.length_replicate, hresult]
  have hdelta : (List.zipWith (· - ·) result latest).length = n := by
    rw [List.length_zipWith, hresult, hlatest, min_self]
  have hnew : (List.zipWith (fun v delta => β * v + delta) old
      (List.zipWith (· - ·) result latest)).length = n := by
    rw [List.length_zipWith, hold, hdelta, min_self]
  have hvelocity : vector n old = if velocity.length = n then vector n velocity else 0 := by
    by_cases hsame : velocity.length = n
    · rw [if_pos hsame]
      simp only [old, hresult, if_pos hsame]
    · rw [if_neg hsame]
      simp only [old, hresult, if_neg hsame, Int.cast_zero]
      exact vector_zero
  refine ⟨hnew, ?_, ?_, ?_⟩
  · show (List.zipWith (· + ·) latest _).length = n
    rw [List.length_zipWith, hlatest]
    exact Nat.min_eq_left hnew.ge
  · rw [← hvelocity, ← vector_sub hresult hlatest]
    ext i
    exact vector_zipWith _ hold hdelta i
  · exact vector_add hlatest hnew

theorem smoothed_sub (β : ℝ) (x : Optimizer ℝ) {u v : List ℝ} (hu : u.length = n)
    (hv : v.length = n) :
    vector n (smoothed β x u).2 - vector n (smoothed β x v).2 = vector n u - vector n v := by
  unfold smoothed
  cases x.latest with
  | none => rfl
  | some latest =>
    dsimp only
    rw [hu, hv]
    by_cases hmoves : latest ≠ [] ∧ latest.length = n ∧ isPositive β = true
    · obtain ⟨-, -, hvelocity, hmoved⟩ :=
        applyMomentum_exact β (x.velocity.getD []) hmoves.2.1 hu
      obtain ⟨-, -, hvelocity', hmoved'⟩ :=
        applyMomentum_exact β (x.velocity.getD []) hmoves.2.1 hv
      rw [if_pos hmoves, if_pos hmoves, hmoved, hmoved', hvelocity, hvelocity']
      abel
    · rw [if_neg hmoves, if_neg hmoves]

end

end PqFl.ClippedVectors
