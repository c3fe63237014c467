import Mathlib.Data.List.Basic

/-!
# Self-delimiting codes

A code is self-delimiting when the code of a value can be told from whatever
follows it. Codes of lists which are put together from such codes determine
the list.
-/

set_option autoImplicit false

namespace PqFl.Codes

variable {α β : Type*}

def SelfDelimiting (code : α → List β) : Prop :=
  ∀ ⦃x y : α⦄ ⦃u v : List β⦄, code x ++ u = code y ++ v → x = y ∧ u = v

theorem split_first {c : β} {a b u v : List β} (ha : c ∉ a) (hb : c ∉ b)
    (h : a ++ c :: u = b ++ c :: v) : a = b ∧ u = v := by
  induction a generalizing b with
  | nil =>
    cases b with
    | nil => exact ⟨rfl, List.tail_eq_of_cons_eq h⟩
    | cons d b =>
      obtain ⟨rfl, -⟩ := List.cons.inj h
      exact absurd List.mem_cons_self hb
  | cons d a ih =>
    cases b with
    | nil =>
      obtain ⟨rfl, -⟩ := List.cons.inj h
      exact absurd List.mem_cons_self ha
    | cons e b =>
      obtain ⟨rfl, hrest⟩ := List.cons.inj h
      obtain ⟨rfl, huv⟩ := ih (fun hc => ha (List.mem_cons_of_mem _ hc))
        (fun hc => hb (List.mem_cons_of_mem _ hc)) hrest
      exact ⟨rfl, huv⟩

theorem selfDelimiting_closed {code : α → List β} {stop : β} (hstop : ∀ x, stop ∉ code x)
    (hinj : Function.Injective code) : SelfDelimiting (fun x => code x ++ [stop]) := by
  intro x y u v h
  simp only [List.append_assoc, List.singleton_append] at h
  obtain ⟨hcode, hrest⟩ := split_first (hstop x) (hstop y) h
  exact ⟨hinj hcode, hrest⟩

theorem SelfDelimiting.withLength {code : ℕ → List β} (h : SelfDelimiting code) :
    SelfDelimiting (fun part : List β => code part.length ++ part) := by
  intro x y u v heq
  simp only [List.append_assoc] at heq
  obtain ⟨hlength, hrest⟩ := h heq
  exact List.append_inj hrest hlength

theorem SelfDelimiting.marked {code : α → List β} (h : SelfDelimiting code) (start : List β) :
    SelfDelimiting (fun x => start ++ code x) := by
  intro x y u v heq
  simp only [List.append_assoc] at heq
  exact h (List.append_cancel_left heq)

theorem SelfDelimiting.flatMap_injective {code : α → List β} (h : SelfDelimiting code)
    (hne : ∀ x, code x ≠ []) : Function.Injective (fun xs : List α => xs.flatMap code) := by
  intro xs
  induction xs with
  | nil =>
    intro ys heq
    cases ys with
    | nil => rfl
    | cons y ys => exact absurd heq.symm (by simp [hne y])
  | cons x xs ih =>
    intro ys heq
    cases ys with
    | nil => exact absurd heq (by simp [hne x])
    | cons y ys =>
      simp only [List.flatMap_cons] at heq
      obtain ⟨rfl, hrest⟩ := h heq
      rw [ih hrest]

end PqFl.Codes
