import Mathlib.Data.Nat.Init
import PqFl.Runs

/-!
# Work and its budget

A system whose states hold work. Some of its actions ask for work, at most
`price` each, others do some of it. Along a run the work that is done is paid
by the work that was there and the work that was asked for.
-/

set_option autoImplicit false

namespace PqFl.Budgets
open PqFl.Runs

variable {σ α : Type*} {step : σ → α → Option σ} {work : σ → ℕ} {asks does : α → Bool}
  {price : ℕ} {s s' : σ}

/-- What one action may change about the work of a state. -/
structure Budgeted (step : σ → α → Option σ) (work : σ → ℕ) (asks does : α → Bool)
    (price : ℕ) : Prop where
  apart : ∀ a, does a = true → asks a = false
  done : ∀ s a s', step s a = some s' → does a = true → work s' < work s
  asked : ∀ s a s', step s a = some s' → asks a = true → work s' ≤ work s + price
  idle : ∀ s a s', step s a = some s' → asks a = false → work s' ≤ work s

theorem Budgeted.step_le (h : Budgeted step work asks does price) {a : α}
    (hs : step s a = some s') :
    (if does a then 1 else 0) + work s' ≤ work s + price * (if asks a then 1 else 0) := by
  by_cases hdoes : does a = true
  · have hless := h.done s a s' hs hdoes
    simp only [hdoes, h.apart a hdoes, if_true, Bool.false_eq_true, if_false]
    omega
  · by_cases hasks : asks a = true
    · have hmore := h.asked s a s' hs hasks
      simp only [hdoes, hasks, if_true, Bool.false_eq_true, if_false]
      omega
    · have hsame := h.idle s a s' hs (by simpa using hasks)
      simp only [hdoes, hasks, Bool.false_eq_true, if_false]
      omega

theorem Budgeted.exec_le (h : Budgeted step work asks does price) (as : List α)
    (hrun : exec step as s = some s') :
    as.countP does + work s' ≤ work s + price * as.countP asks := by
  induction as generalizing s with
  | nil =>
    obtain rfl : s = s' := by simpa [exec] using hrun
    simp
  | cons a as ih =>
    obtain ⟨t, ht, hrest⟩ := Option.bind_eq_some_iff.mp hrun
    have hfirst := h.step_le ht
    have hlater := ih hrest
    rw [List.countP_cons, List.countP_cons, Nat.mul_add]
    omega

/-- Where work is left as long as the system is not done, it comes to an end
within the work which is left, by steps that `goes` chooses. -/
theorem Budgeted.drains (h : Budgeted step work asks does price) {goes : α → Prop} {final : σ → Prop}
    (hdoes : ∀ a, goes a → does a = true)
    (hgoes : ∀ s, ¬ final s → ∃ a s', goes a ∧ step s a = some s') (s : σ) :
    ∃ as s', (∀ a ∈ as, goes a) ∧ exec step as s = some s' ∧ final s' ∧ as.length ≤ work s := by
  induction hn : work s using Nat.strong_induction_on generalizing s with
  | _ n ih =>
    by_cases hfinal : final s
    · exact ⟨[], s, by simp, rfl, hfinal, Nat.zero_le _⟩
    · obtain ⟨a, t, ha, ht⟩ := hgoes s hfinal
      have hless : work t < n := by
        rw [← hn]
        exact h.done s a t ht (hdoes a ha)
      obtain ⟨as, s', has, hrun, hdone, hlength⟩ := ih (work t) hless t rfl
      have hall : ∀ b ∈ a :: as, goes b := by
        intro b hb
        rcases List.mem_cons.mp hb with rfl | hb
        · exact ha
        · exact has b hb
      have hexec : exec step (a :: as) s = some s' := by
        simp only [exec, ht, Option.bind_some, hrun]
      exact ⟨a :: as, s', hall, hexec, hdone, by simp only [List.length_cons]; omega⟩

end PqFl.Budgets
