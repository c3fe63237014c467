import Mathlib.Data.List.Basic
import Mathlib.Logic.Relation

/-!
# Unwinding

A system which answers calls, some of which are one party's own. When the calls
of the others leave the state the same for the party, and its own calls give
the same answers in states that are the same for it, then its answers in a run
are those of the run without the calls of the others.
-/

set_option autoImplicit false

namespace PqFl.Unwinding

variable {S A O : Type*}

/-- The state after a list of calls. -/
def finish (step : S → A → S × O) : S → List A → S
  | s, [] => s
  | s, a::as => finish step (step s a).1 as

/-- The answers which the party gets. -/
def answers (step : S → A → S × O) (own : A → Bool) : S → List A → List O
  | _, [] => []
  | s, a::as => if own a then (step s a).2 :: answers step own (step s a).1 as
      else answers step own (step s a).1 as

structure Unwinds (step : S → A → S × O) (own : A → Bool) (ok : A → Prop)
    (same : S → S → Prop) : Prop where
  equivalence : Equivalence same
  silent : ∀ s a, ok a → own a = false → same (step s a).1 s
  agrees : ∀ s s' a, ok a → own a = true → same s s' →
    (step s a).2 = (step s' a).2 ∧ same (step s a).1 (step s' a).1

variable {step : S → A → S × O} {own : A → Bool} {ok : A → Prop} {same : S → S → Prop}

theorem Unwinds.purge (h : Unwinds step own ok same) {as : List A} (hok : ∀ a ∈ as, ok a)
    {s s' : S} (hs : same s s') :
    answers step own s as = answers step own s' (as.filter own) ∧
      same (finish step s as) (finish step s' (as.filter own)) := by
  induction as generalizing s s' with
  | nil => exact ⟨rfl, hs⟩
  | cons a as ih =>
    have ha := hok a List.mem_cons_self
    have hrest : ∀ b ∈ as, ok b := fun b hb => hok b (List.mem_cons_of_mem _ hb)
    by_cases hown : own a = true
    · obtain ⟨hanswer, hnext⟩ := h.agrees s s' a ha hown hs
      obtain ⟨hanswers, hfinish⟩ := ih hrest hnext
      rw [List.filter_cons_of_pos hown, answers, answers, if_pos hown, if_pos hown, hanswer,
        hanswers]
      exact ⟨rfl, hfinish⟩
    · have hnext := h.equivalence.trans (h.silent s a ha (Bool.eq_false_iff.mpr hown)) hs
      rw [List.filter_cons_of_neg hown, answers, if_neg hown]
      exact ih hrest hnext

end PqFl.Unwinding
