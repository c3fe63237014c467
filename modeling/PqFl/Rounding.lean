import Mathlib.Tactic.Ring
import PqFl.Binary32

/-!
# Bounds of the rounding

A quotient that is at most a finite float rounds to at most that float: the
rounding never passes a representable value. Scaling by at most one therefore
keeps a vector finite, and never makes it finite.
-/

set_option autoImplicit false

namespace PqFl.Floats
open PqFl.Crypto PqFl.Aggregation

/-- The bits of one. -/
def oneBits : ℕ := 127 * 2^23

theorem magnitudeBits_pack (negative : Bool) {magnitude : ℕ} (h : magnitude < 2^31) :
    magnitudeBits (pack negative magnitude) = magnitude := by
  unfold magnitudeBits pack
  rw [UInt32.toNat_ofNat']
  cases negative with
  | false =>
    simp only [Bool.false_eq_true, if_false]
    omega
  | true =>
    simp only [if_true]
    omega

theorem rounded_cases (step floor rest : ℕ) (hstep : 0 < step) :
    (if step < 2 * rest ∨ (2 * rest = step ∧ floor % 2 = 1) then floor + 1 else floor) = floor ∨
      0 < rest ∧ (if step < 2 * rest ∨ (2 * rest = step ∧ floor % 2 = 1) then floor + 1
        else floor) = floor + 1 := by
  by_cases hup : step < 2 * rest ∨ (2 * rest = step ∧ floor % 2 = 1)
  · rw [if_pos hup]
    right
    refine ⟨?_, rfl⟩
    rcases hup with h | h
    · omega
    · omega
  · rw [if_neg hup]
    exact .inl rfl

theorem rounded_le {a step n : ℕ} (hstep : 0 < step) (h : a ≤ n * step) :
    (if step < 2 * (a % step) ∨ (2 * (a % step) = step ∧ a / step % 2 = 1) then a / step + 1
      else a / step) ≤ n := by
  have hdiv := Nat.div_add_mod a step
  rcases rounded_cases step (a / step) (a % step) hstep with hdown | ⟨hrest, hup⟩
  · rw [hdown]
    apply Nat.div_le_of_le_mul
    rwa [Nat.mul_comm]
  · rw [hup]
    have hlt : a / step * step < n * step := by
      rw [Nat.mul_comm (a / step)]
      omega
    exact Nat.lt_of_mul_lt_mul_right hlt

theorem units_lt (x : Binary32) : units x < 2^(magnitudeBits x / 2^23 + 23) := by
  have hfraction : magnitudeBits x % 2^23 < 2^23 := Nat.mod_lt _ (by decide)
  unfold units
  simp only
  split
  · rename_i hzero
    rw [hzero]
    omega
  · rename_i hnormal
    obtain ⟨k, hk⟩ := Nat.exists_eq_succ_of_ne_zero hnormal
    rw [hk, Nat.succ_eq_add_one, Nat.add_sub_cancel, show k + 1 + 23 = 24 + k by omega, Nat.pow_add]
    apply Nat.mul_lt_mul_of_pos_right
    · omega
    · exact Nat.two_pow_pos k

theorem quotient_lt_shift (q : ℕ) : q < 2^(24 + (q.log2 - 23)) := by
  by_cases hzero : q = 0
  · rw [hzero]
    exact Nat.two_pow_pos _
  · rw [← Nat.log2_lt hzero]
    omega

theorem shift_le {q exponent : ℕ} (h : q < 2^(exponent + 23)) : q.log2 - 23 ≤ exponent - 1 := by
  by_cases hzero : q = 0
  · rw [hzero, Nat.log2_zero]
    omega
  · rw [← Nat.log2_lt hzero] at h
    omega

theorem units_on_grid (x : Binary32) {shift : ℕ} (h : shift = magnitudeBits x / 2^23 - 1) :
    ∃ n, units x = n * 2^shift ∧ n + shift * 2^23 = magnitudeBits x := by
  have hbits := Nat.div_add_mod (magnitudeBits x) (2^23)
  unfold units
  simp only
  split
  · rename_i hzero
    refine ⟨magnitudeBits x % 2^23, ?_, ?_⟩
    · rw [h, hzero]
      omega
    · omega
  · rename_i hnormal
    refine ⟨2^23 + magnitudeBits x % 2^23, ?_, ?_⟩
    · rw [h]
    · omega

theorem roundQuotient_le {a b : ℕ} {x : Binary32} (hb : 0 < b) (h : a ≤ units x * b) :
    roundQuotient a b ≤ magnitudeBits x := by
  apply le_trans (min_le_left _ _)
  have hquotient : a / b ≤ units x := by
    apply Nat.div_le_of_le_mul
    rwa [Nat.mul_comm]
  have hshift := shift_le (lt_of_le_of_lt hquotient (units_lt x))
  have hbound := Nat.lt_mul_of_div_lt (quotient_lt_shift (a / b)) hb
  generalize (a / b).log2 - 23 = shift at *
  have hstep : 0 < b * 2^shift := Nat.mul_pos hb (Nat.two_pow_pos shift)
  rcases Nat.lt_or_eq_of_le hshift with hlt | heq
  · -- below the exponent of the float: a carry at most reaches it
    have hfloor : a ≤ 2^24 * (b * 2^shift) := by
      calc a ≤ 2^(24 + shift) * b := hbound.le
        _ = 2^24 * (b * 2^shift) := by ring
    have hrounded := rounded_le hstep hfloor
    have hpower : (shift + 2) * 2^23 ≤ magnitudeBits x / 2^23 * 2^23 := by
      apply Nat.mul_le_mul_right
      omega
    have hbits := Nat.div_mul_le_self (magnitudeBits x) (2^23)
    show _ + shift * 2^23 ≤ _
    omega
  · obtain ⟨n, hunits, hn⟩ := units_on_grid x heq
    have hgrid : a ≤ n * (b * 2^shift) := by
      calc a ≤ units x * b := h
        _ = n * (b * 2^shift) := by rw [hunits]; ring
    have hrounded := rounded_le hstep hgrid
    show _ + shift * 2^23 ≤ _
    omega

theorem units_mono {x y : Binary32} (h : magnitudeBits x ≤ magnitudeBits y) :
    units x ≤ units y := by
  have hexponent : magnitudeBits x / 2^23 ≤ magnitudeBits y / 2^23 := Nat.div_le_div_right h
  have hx := Nat.div_add_mod (magnitudeBits x) (2^23)
  have hy := Nat.div_add_mod (magnitudeBits y) (2^23)
  rcases Nat.lt_or_eq_of_le hexponent with hlt | heq
  · have hunits := units_lt x
    have hlow : 2^(magnitudeBits y / 2^23 + 22) ≤ units y := by
      unfold units
      simp only
      rw [if_neg (by omega)]
      obtain ⟨k, hk⟩ := Nat.exists_eq_succ_of_ne_zero (n := magnitudeBits y / 2^23) (by omega)
      rw [hk, Nat.succ_eq_add_one, Nat.add_sub_cancel, show k + 1 + 22 = 23 + k by omega,
        Nat.pow_add]
      apply Nat.mul_le_mul_right
      omega
    have hpower : 2^(magnitudeBits x / 2^23 + 23) ≤ 2^(magnitudeBits y / 2^23 + 22) := by
      apply Nat.pow_le_pow_right
      · omega
      · omega
    omega
  · unfold units
    simp only [heq]
    rw [heq] at hx
    split
    · omega
    · apply Nat.mul_le_mul_right
      omega

theorem not_finite_mul {x y : Binary32} (h : isFinite x = false) : isFinite (mul x y) = false := by
  unfold isFinite at h ⊢
  rw [decide_eq_false_iff_not] at h ⊢
  unfold mul
  simp only
  split
  · decide
  · rename_i hnan
    have hinf : isInfinite x = true := by
      simp only [Bool.or_eq_true, not_or, isNaN, decide_eq_true_eq] at hnan
      unfold isInfinite
      rw [decide_eq_true_eq]
      omega
    rw [hinf, Bool.true_or, if_pos rfl]
    split
    · decide
    · rw [magnitudeBits_pack _ (by decide)]
      omega

theorem finite_mul {x y : Binary32} (hx : isFinite x = true) (hy : magnitudeBits y ≤ oneBits) :
    isFinite (mul x y) = true := by
  unfold isFinite at hx ⊢
  rw [decide_eq_true_eq] at hx ⊢
  have hone : oneBits < infinityBits := by decide
  have hle : roundQuotient (units x * units y) (2^149) ≤ magnitudeBits x := by
    apply roundQuotient_le (Nat.two_pow_pos 149)
    apply Nat.mul_le_mul_left
    have hunits := units_mono (y := pack false oneBits) (x := y)
      (by rwa [magnitudeBits_pack _ (by decide)])
    have hval : units (pack false oneBits) = 2^149 := by decide +kernel
    omega
  have hlimit : infinityBits < 2^31 := by decide
  unfold mul
  simp only
  rw [if_neg, if_neg, magnitudeBits_pack _ (by omega)]
  · omega
  · simp only [isInfinite, Bool.or_eq_true, decide_eq_true_eq]
    omega
  · simp only [isNaN, Bool.or_eq_true, decide_eq_true_eq]
    omega

theorem div_le_one {x y : Binary32} (hx : isFinite x = true) (hy : isNaN y = false)
    (h : magnitudeBits x < magnitudeBits y) : magnitudeBits (div x y) ≤ oneBits := by
  unfold isFinite at hx
  unfold isNaN at hy
  rw [decide_eq_true_eq] at hx
  rw [decide_eq_false_iff_not] at hy
  unfold div
  simp only
  rw [if_neg, if_neg]
  · split
    · rw [magnitudeBits_pack _ (by decide)]
      exact Nat.zero_le _
    · rename_i hinf
      rw [if_neg (by omega)]
      have hpos : 0 < units y := by
        unfold units
        simp only
        split
        · have := Nat.div_add_mod (magnitudeBits y) (2^23)
          omega
        · exact Nat.mul_pos (by omega) (Nat.two_pow_pos _)
      have hle : roundQuotient (units x * 2^149) (units y) ≤
          magnitudeBits (pack false oneBits) := by
        apply roundQuotient_le hpos
        have hval : units (pack false oneBits) = 2^149 := by decide +kernel
        rw [hval, Nat.mul_comm]
        exact Nat.mul_le_mul_left _ (units_mono h.le)
      rw [magnitudeBits_pack _ (by decide)] at hle
      have hone : oneBits < 2^31 := by decide
      rw [magnitudeBits_pack _ (by omega)]
      exact hle
  · simp only [isInfinite, decide_eq_true_eq]
    omega
  · simp only [isNaN, isInfinite, Bool.or_eq_true, Bool.and_eq_true, decide_eq_true_eq]
    omega

theorem finite_mul_iff {x y : Binary32} (hy : magnitudeBits y ≤ oneBits) :
    isFinite (mul x y) = isFinite x := by
  cases hx : isFinite x with
  | false => exact not_finite_mul hx
  | true => exact finite_mul hx hy

theorem scale_le_one {clipNorm l2 : Binary32} (hpos : isPositive clipNorm = true)
    (hlt : lt clipNorm l2 = true) : magnitudeBits (div clipNorm l2) ≤ oneBits := by
  have hpos' : lt (ofInt 0) clipNorm = true := hpos
  have hsign : isNegative (ofInt 0) = false := by decide +kernel
  simp only [lt, hsign, Bool.false_eq_true, if_false, Bool.and_eq_true, Bool.not_eq_true'] at hpos'
  simp only [lt, hpos'.2.1, Bool.false_eq_true, if_false, Bool.and_eq_true, Bool.not_eq_true',
    decide_eq_true_eq] at hlt
  have hnan := hlt.1.2
  have hbits := hlt.2.2
  have hfinite : isFinite clipNorm = true := by
    unfold isNaN at hnan
    rw [decide_eq_false_iff_not] at hnan
    unfold isFinite
    rw [decide_eq_true_eq]
    omega
  exact div_le_one hfinite hnan hbits

theorem all_finite_clipWeights (weights : List Binary32) (clipNorm : Binary32) :
    (clipWeights weights clipNorm).all Arith.isFinite = weights.all Arith.isFinite := by
  unfold clipWeights
  simp only
  split
  · rename_i hclip
    rw [Bool.and_eq_true] at hclip
    have hscale := scale_le_one hclip.1 hclip.2
    rw [List.all_map]
    congr 1
    funext value
    exact finite_mul_iff hscale
  · rfl

end PqFl.Floats
