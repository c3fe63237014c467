import Mathlib.Analysis.SpecialFunctions.Sqrt

/-!
# Points with momentum

A point on a line is drawn to a target and keeps a share of its last move. While
the share is below one a quadratic form, the energy, shrinks with every move but
for what the target adds to it. When the point may be held where it is while its
moves go on, half a share is already too much.
-/

set_option autoImplicit false

namespace PqFl.HeavyBall

noncomputable section

variable {β C R u v w x y : ℝ}

/-- The next move of a point at `x` which moved by `v` before and is drawn to `u`. -/
def move (β x v u : ℝ) : ℝ := β * v + (u - x)

theorem place_next (β x v u : ℝ) : x + move β x v u = u + β * v := by
  unfold move
  ring

def energy (β x v : ℝ) : ℝ := x ^ 2 - β * x * v + β * v ^ 2

theorem energy_squares (β x v : ℝ) :
    energy β x v = (1 - β / 4) * x ^ 2 + β * (v - x / 2) ^ 2 := by
  unfold energy
  ring

theorem energy_next (β x v u : ℝ) :
    energy β (x + move β x v u) (move β x v u) =
      β * energy β x v + 2 * β * (u * (v - x / 2)) + u ^ 2 := by
  unfold energy move
  ring

theorem energy_still (β u : ℝ) : energy β u 0 = u ^ 2 := by
  unfold energy
  ring

theorem energy_bounded (hβ : 0 ≤ β) (hsmall : β ≤ 1) (hR : 0 ≤ R) (hstable : √β * R + C ≤ R)
    (hu : |u| ≤ C) (h : energy β x v ≤ R ^ 2) :
    energy β (x + move β x v u) (move β x v u) ≤ R ^ 2 := by
  have hroot : √β ^ 2 = β := Real.sq_sqrt hβ
  have hroot0 : 0 ≤ √β := Real.sqrt_nonneg β
  have hsquare : (√β * (v - x / 2)) ^ 2 ≤ R ^ 2 := by
    have hpart : β * (v - x / 2) ^ 2 ≤ energy β x v := by
      rw [energy_squares]
      have hfirst : 0 ≤ (1 - β / 4) * x ^ 2 := by
        have hcoefficient : 0 ≤ 1 - β / 4 := by linarith
        positivity
      linarith
    rw [mul_pow, hroot]
    exact hpart.trans h
  have hpull : u * (√β * (v - x / 2)) ≤ C * R := by
    have hfactor := abs_le_of_sq_le_sq hsquare hR
    calc u * (√β * (v - x / 2)) ≤ |u| * |√β * (v - x / 2)| := by
          rw [← abs_mul]
          exact le_abs_self _
      _ ≤ C * R := by
          apply mul_le_mul hu hfactor (abs_nonneg _)
          exact (abs_nonneg u).trans hu
  have hcross : 2 * β * (u * (v - x / 2)) ≤ 2 * √β * (C * R) := by
    have hscaled := mul_le_mul_of_nonneg_left hpull (mul_nonneg zero_le_two hroot0)
    calc 2 * β * (u * (v - x / 2)) = 2 * √β * (u * (√β * (v - x / 2))) := by
          nth_rewrite 1 [← hroot]
          ring
      _ ≤ 2 * √β * (C * R) := hscaled
  have htarget : u ^ 2 ≤ C ^ 2 := sq_le_sq' (abs_le.mp hu).1 (abs_le.mp hu).2
  have hC : 0 ≤ C := (abs_nonneg u).trans hu
  rw [energy_next]
  calc β * energy β x v + 2 * β * (u * (v - x / 2)) + u ^ 2
      ≤ β * R ^ 2 + 2 * √β * (C * R) + C ^ 2 := by
        have hkept := mul_le_mul_of_nonneg_left h hβ
        linarith
    _ = (√β * R + C) ^ 2 := by
        nth_rewrite 1 [← hroot]
        ring
    _ ≤ R ^ 2 := pow_le_pow_left₀ (by positivity) hstable 2

theorem abs_place_le (hsmall : β ≤ 1) (hβ : 0 ≤ β) (hR : 0 ≤ R) (h : energy β x v ≤ R ^ 2) :
    |x| ≤ 2 * R := by
  apply abs_le_of_sq_le_sq _ (by linarith)
  rw [energy_squares] at h
  have hrest : 0 ≤ β * (v - x / 2) ^ 2 := by positivity
  have hlarge : 3 / 4 * x ^ 2 ≤ (1 - β / 4) * x ^ 2 :=
    mul_le_mul_of_nonneg_right (by linarith) (sq_nonneg x)
  have hR2 := sq_nonneg R
  linarith

theorem energy_grows (hβ : 1 ≤ β) (hu : 0 ≤ u * (v - x / 2)) (h : 0 ≤ energy β x v) :
    energy β x v + u ^ 2 ≤ energy β (x + move β x v u) (move β x v u) := by
  rw [energy_next]
  have hkept := mul_le_mul_of_nonneg_right hβ h
  have hpull : 0 ≤ 2 * β * (u * (v - x / 2)) := by positivity
  linarith

theorem energy_le (hβ : 0 ≤ β) (hx : |x| ≤ R) (hy : |y| ≤ R) :
    energy β x (x - y) ≤ (1 + 6 * β) * R ^ 2 := by
  have hR : 0 ≤ R := (abs_nonneg x).trans hx
  have hx2 : x ^ 2 ≤ R ^ 2 := sq_le_sq' (abs_le.mp hx).1 (abs_le.mp hx).2
  have hv : |x - y| ≤ 2 * R := (abs_sub x y).trans (by linarith)
  have hv2 : (x - y) ^ 2 ≤ (2 * R) ^ 2 := sq_le_sq' (abs_le.mp hv).1 (abs_le.mp hv).2
  have hcross : -(x * (x - y)) ≤ R * (2 * R) := by
    calc -(x * (x - y)) ≤ |x| * |x - y| := by
          rw [← abs_mul]
          exact neg_le_abs _
      _ ≤ R * (2 * R) := mul_le_mul hx hv (abs_nonneg _) hR
  have hcross' := mul_le_mul_of_nonneg_left hcross hβ
  have hmoves := mul_le_mul_of_nonneg_left hv2 hβ
  unfold energy
  linarith

theorem exists_side (x : ℝ) : ∃ σ : ℝ, σ * σ = 1 ∧ σ * x = -|x| := by
  rcases abs_cases x with ⟨habs, -⟩ | ⟨habs, -⟩
  · exact ⟨-1, by norm_num, by rw [habs]; ring⟩
  · exact ⟨1, by norm_num, by rw [habs]; ring⟩

theorem side_move {σ : ℝ} (hσ : σ * σ = 1) (hx : σ * x = -|x|) :
    σ * move β x v (σ * C) = β * (σ * v) + (C + |x|) := by
  unfold move
  calc σ * (β * v + (σ * C - x)) = β * (σ * v) + (σ * σ * C - σ * x) := by ring
    _ = β * (σ * v) + (C + |x|) := by
        rw [hσ, hx]
        ring

theorem charge_next (hβ : 1 / 2 ≤ β) (hC : 0 ≤ C) (hy : 0 ≤ y) {k : ℕ}
    (hw : min (k * C) (2 * y) ≤ w) :
    min ((k + 1 : ℕ) * C) (2 * y) ≤ β * w + (C + y) := by
  have hkC : 0 ≤ (k : ℝ) * C := by positivity
  have hw0 : 0 ≤ w := (le_min hkC (by linarith)).trans hw
  have hhalf := mul_le_mul_of_nonneg_right hβ hw0
  rw [Nat.cast_add, Nat.cast_one, add_mul, one_mul]
  by_cases hfull : 2 * y ≤ w
  · exact (min_le_right _ _).trans (by linarith)
  · have hcount : k * C ≤ w := by
      rcases min_le_iff.mp hw with hcount | hfar
      · exact hcount
      · exact absurd hfar hfull
    exact (min_le_left _ _).trans (by linarith)

end

end PqFl.HeavyBall
