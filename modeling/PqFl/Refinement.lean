import PqFl.Runs

/-!
# Refinement

A system refines another one when each of its steps is answered by a step of the
other one, or by none. Runs then correspond. Which steps the other system may
take can depend on the run so far; what was allowed once stays allowed.
-/

set_option autoImplicit false

namespace PqFl.Refinement
open PqFl.Runs

variable {σ τ α β : Type*} {step : σ → α → Option σ} {ok : σ → α → Prop}
variable {above : τ → β → Option τ} {allowed : σ → τ → β → Prop} {s₀ s : σ} {t₀ : τ}

theorem reaches_weaken {ok' : σ → α → Prop} (hok : ∀ s a, ok s a → ok' s a)
    (h : Reaches step ok s₀ s) : Reaches step ok' s₀ s := by
  induction h with
  | start => exact .start
  | next _ ha hs ih => exact ih.next (hok _ _ ha) hs

/-- The other system stays where it is or takes one step. -/
def Answers (above : τ → β → Option τ) (allowed : τ → β → Prop) (t t' : τ) : Prop :=
  t' = t ∨ ∃ b, allowed t b ∧ above t b = some t'

structure Refines (step : σ → α → Option σ) (ok : σ → α → Prop) (above : τ → β → Option τ)
    (allowed : σ → τ → β → Prop) (R : σ → τ → Prop) : Prop where
  answers : ∀ s a s' t, ok s a → step s a = some s' → R s t →
    ∃ t', Answers above (allowed s') t t' ∧ R s' t'
  grows : ∀ s a s' t b, ok s a → step s a = some s' → allowed s t b → allowed s' t b

theorem Refines.run {R : σ → τ → Prop} (h : Refines step ok above allowed R) (h0 : R s₀ t₀)
    (hs : Reaches step ok s₀ s) : ∃ t, Reaches above (allowed s) t₀ t ∧ R s t := by
  induction hs with
  | start => exact ⟨t₀, .start, h0⟩
  | @next x x' a _ ha hstep ih =>
    obtain ⟨t, ht, hrelated⟩ := ih
    have hgrown : Reaches above (allowed x') t₀ t :=
      reaches_weaken (fun t b => h.grows x a x' t b ha hstep) ht
    obtain ⟨t', hanswer, hrelated'⟩ := h.answers x a x' t ha hstep hrelated
    rcases hanswer with rfl | ⟨b, hb, habove⟩
    · exact ⟨t', hgrown, hrelated'⟩
    · exact ⟨t', hgrown.next hb habove, hrelated'⟩

end PqFl.Refinement
