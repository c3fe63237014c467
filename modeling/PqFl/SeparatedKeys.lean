import Mathlib.Data.List.Infix
import Mathlib.Tactic.Common

/-!
# Strings joined by separators

When a composite key determines its parts. A separator splits a string at its
last occurrence, so the part after it may not contain the separator's last
character; decimal numerals never do. Without such a restriction two joined
strings coincide exactly when one prefix extends the other.
-/

set_option autoImplicit false

namespace PqFl.SeparatedKeys

variable {α : Type*}

theorem split_last {c : α} {u v a b : List α} (ha : c ∉ a) (hb : c ∉ b)
    (h : u ++ c :: a = v ++ c :: b) : u = v ∧ a = b := by
  rcases List.append_eq_append_iff.mp h with ⟨w, hv, hw⟩ | ⟨w, hu, hw⟩
  · cases w with
    | nil => simp_all
    | cons d w =>
      obtain ⟨rfl, hab⟩ := List.cons.inj hw
      exact absurd (by simp [hab]) ha
  · cases w with
    | nil => simp_all
    | cons d w =>
      obtain ⟨rfl, hab⟩ := List.cons.inj hw
      exact absurd (by simp [hab]) hb

theorem split_separator {s : List α} {c : α} {u v a b : List α} (ha : c ∉ a) (hb : c ∉ b)
    (h : u ++ (s ++ [c]) ++ a = v ++ (s ++ [c]) ++ b) : u = v ∧ a = b := by
  have h' : (u ++ s) ++ c :: a = (v ++ s) ++ c :: b := by simpa using h
  obtain ⟨hp, hab⟩ := split_last ha hb h'
  exact ⟨List.append_cancel_right hp, hab⟩

/-- Joined strings are determined part by part when the separator ends in a
character which does not occur in the last parts. -/
theorem joined_inj {sep u v a b : String} {s : List Char} {c : Char}
    (hsep : sep.toList = s ++ [c]) (ha : c ∉ a.toList) (hb : c ∉ b.toList)
    (h : u ++ sep ++ a = v ++ sep ++ b) : u = v ∧ a = b := by
  have hl := congrArg String.toList h
  simp only [String.toList_append, hsep] at hl
  obtain ⟨hu, hab⟩ := split_separator ha hb hl
  exact ⟨String.toList_inj.mp hu, String.toList_inj.mp hab⟩

theorem digit_of_mem_repr {n : ℕ} {c : Char} (h : c ∈ n.repr.toList) : c.isDigit := by
  rw [Nat.toList_repr] at h
  exact Nat.isDigit_of_mem_toDigits (by decide) (by decide) h

theorem nat_repr_inj {m n : ℕ} (h : m.repr = n.repr) : m = n := by
  have hd := congrArg String.toList h
  rw [Nat.toList_repr, Nat.toList_repr] at hd
  rw [← Nat.ofDigitChars_ten_toDigits (n := m), hd, Nat.ofDigitChars_ten_toDigits]

theorem decimal_of_mem_toString {z : ℤ} {c : Char} (h : c ∈ (toString z).toList) :
    c.isDigit ∨ c = '-' := by
  cases z with
  | ofNat n => exact .inl (digit_of_mem_repr h)
  | negSucc n =>
    have hs : (toString (Int.negSucc n)).toList = '-' :: (n+1).repr.toList := by
      change ("-" ++ (n+1).repr).toList = _
      simp
    rw [hs] at h
    rcases List.mem_cons.mp h with rfl | hc
    · exact .inr rfl
    · exact .inl (digit_of_mem_repr hc)

theorem toString_inj {y z : ℤ} (h : toString y = toString z) : y = z := by
  have hne : ∀ m n : ℕ, m.repr ≠ "-" ++ n.repr := by
    intro m n h
    have hm : '-' ∈ m.repr.toList := by rw [h]; simp
    exact absurd (digit_of_mem_repr hm) (by decide)
  cases y with
  | ofNat m =>
    cases z with
    | ofNat n => exact congrArg Int.ofNat (nat_repr_inj h)
    | negSucc n => exact absurd h (hne m (n+1))
  | negSucc m =>
    cases z with
    | ofNat n => exact absurd h.symm (hne n (m+1))
    | negSucc n =>
      have h' : "-" ++ (m+1).repr = "-" ++ (n+1).repr := h
      have := nat_repr_inj (String.append_right_inj "-" |>.mp h')
      exact congrArg Int.negSucc (by omega)

theorem colon_notMem_toString (z : ℤ) : ':' ∉ (toString z).toList := by
  intro h
  rcases decimal_of_mem_toString h with h | h
  · exact absurd h (by decide)
  · exact absurd h (by decide)

end PqFl.SeparatedKeys
