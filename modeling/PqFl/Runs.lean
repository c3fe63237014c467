import Mathlib.Logic.Basic

/-!
# Runs of a partial step function

A system is a step function which may refuse an action. A run is a finite
sequence of accepted steps, each of which meets a condition in the state it
starts from. Safety results are proved once per step and lifted here.
-/

set_option autoImplicit false

namespace PqFl.Runs

variable {σ α : Type*} {step : σ → α → Option σ} {ok : σ → α → Prop} {s₀ s s' : σ}

inductive Reaches (step : σ → α → Option σ) (ok : σ → α → Prop) (s₀ : σ) : σ → Prop
  | start : Reaches step ok s₀ s₀
  | next {s s' : σ} {a : α} (h : Reaches step ok s₀ s) (ha : ok s a)
      (hs : step s a = some s') : Reaches step ok s₀ s'

/-- Every action is allowed. -/
def Free (_ : σ) (_ : α) : Prop := True

/-- The step rule: a property of the first state which every allowed step
preserves holds in every state of a run. -/
theorem Reaches.invariant {I : σ → Prop} (h0 : I s₀)
    (hstep : ∀ s a s', I s → ok s a → step s a = some s' → I s')
    (h : Reaches step ok s₀ s) : I s := by
  induction h with
  | start => exact h0
  | next _ ha hs ih => exact hstep _ _ _ ih ha hs

/-- An invariant may be added to the condition of every step, so that later
invariants are proved relative to it. -/
theorem Reaches.strengthen {I : σ → Prop} (h0 : I s₀)
    (hstep : ∀ s a s', I s → ok s a → step s a = some s' → I s')
    (h : Reaches step ok s₀ s) : Reaches step (fun s a => ok s a ∧ I s) s₀ s := by
  induction h with
  | start => exact .start
  | next h ha hs ih => exact ih.next ⟨ha, h.invariant h0 hstep⟩ hs

theorem Reaches.trans {s₁ : σ} (h : Reaches step ok s₀ s) (h' : Reaches step ok s s₁) :
    Reaches step ok s₀ s₁ := by
  induction h' with
  | start => exact h
  | next _ ha hs ih => exact ih.next ha hs

/-- The state after a list of actions, if none of them is refused. -/
def exec (step : σ → α → Option σ) : List α → σ → Option σ
  | [], s => some s
  | a::as, s => (step s a).bind (exec step as)

/-- The same, where a test has to pass before every step. -/
def execTested (step : σ → α → Option σ) (test : σ → α → Bool) : List α → σ → Option σ
  | [], s => some s
  | a::as, s => if test s a then (step s a).bind (execTested step test as) else none

theorem execTested_reaches (test : σ → α → Bool) (htest : ∀ s a, test s a = true → ok s a)
    (as : List α) (h : execTested step test as s = some s') : Reaches step ok s s' := by
  induction as generalizing s with
  | nil =>
    obtain rfl : s = s' := by simpa [execTested] using h
    exact .start
  | cons a as ih =>
    simp only [execTested] at h
    split at h
    · rename_i ha
      obtain ⟨t, ht, hrest⟩ := Option.bind_eq_some_iff.mp h
      exact (Reaches.start.next (htest s a ha) ht).trans (ih hrest)
    · cases h

theorem exec_reaches_of (as : List α) (hok : ∀ a ∈ as, ∀ s, ok s a)
    (h : exec step as s = some s') : Reaches step ok s s' := by
  induction as generalizing s with
  | nil =>
    obtain rfl : s = s' := by simpa [exec] using h
    exact .start
  | cons a as ih =>
    obtain ⟨t, ht, hrest⟩ := Option.bind_eq_some_iff.mp h
    have hlater : Reaches step ok t s' := ih (fun b hb => hok b (List.mem_cons_of_mem _ hb)) hrest
    exact (Reaches.start.next (hok a List.mem_cons_self s) ht).trans hlater

theorem exec_reaches (as : List α) (h : exec step as s = some s') :
    Reaches step Free s s' :=
  exec_reaches_of as (fun _ _ _ => trivial) h

end PqFl.Runs
