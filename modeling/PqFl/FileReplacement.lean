import Mathlib.Tactic.Common

/-!
# Replacing a file as a whole

A new text is written to a temporary file next to the target, which is then
renamed over it. Whatever step the writer stops at, the target has the old text
or the new one.
-/

set_option autoImplicit false

namespace PqFl.FileReplacement

variable {α : Type*}

structure Files (α : Type*) where
  target : Option α
  temp : Option α

inductive FileStep (α : Type*) where
  | write (text : α)
  | sync
  | rename

/-- A write leaves the temporary file with this text, be it the whole one or not. -/
def effect : FileStep α → Files α → Files α
  | .write text, f => { f with temp := some text }
  | .sync, f => f
  | .rename, f =>
    match f.temp with
    | some text => ⟨some text, none⟩
    | none => f

def effects : List (FileStep α) → Files α → Files α
  | [], f => f
  | x::xs, f => effects xs (effect x f)

/-- The texts `cuts` are in the temporary file before it is complete. -/
def replaceSteps (cuts : List α) (whole : α) : List (FileStep α) :=
  cuts.map .write ++ [.write whole, .sync, .rename, .sync]

theorem effects_append (xs ys : List (FileStep α)) (f : Files α) :
    effects (xs ++ ys) f = effects ys (effects xs f) := by
  induction xs generalizing f with
  | nil => rfl
  | cons x xs ih => exact ih _

theorem writes_target (cuts : List α) (f : Files α) :
    (effects (cuts.map .write) f).target = f.target := by
  induction cuts generalizing f with
  | nil => rfl
  | cons text cuts ih => exact ih _

theorem replace_done (cuts : List α) (whole : α) (f : Files α) :
    effects (replaceSteps cuts whole) f = ⟨some whole, none⟩ := by
  rw [replaceSteps, effects_append]
  rfl

theorem replace_stopped (cuts : List α) (whole : α) (k : ℕ) (f : Files α) :
    (effects ((replaceSteps cuts whole).take k) f).target = f.target ∨
      (effects ((replaceSteps cuts whole).take k) f).target = some whole := by
  rw [replaceSteps, List.take_append, effects_append]
  by_cases hk : k ≤ (cuts.map FileStep.write).length
  · have hrest : k - (cuts.map FileStep.write).length = 0 := by omega
    rw [hrest, List.take_zero, ← List.map_take]
    exact .inl (writes_target _ f)
  · have hall : (cuts.map FileStep.write).take k = cuts.map .write :=
      List.take_of_length_le (by omega)
    rw [hall]
    have hkept := writes_target cuts f
    generalize effects (cuts.map .write) f = g at hkept ⊢
    generalize k - (cuts.map FileStep.write).length = i
    match i with
    | 0 => exact .inl hkept
    | 1 => exact .inl hkept
    | 2 => exact .inl hkept
    | 3 => exact .inr rfl
    | i+4 =>
      rw [List.take_of_length_le (by simp)]
      exact .inr rfl

end PqFl.FileReplacement
