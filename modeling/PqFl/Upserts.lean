import Mathlib.Data.List.Nodup
import PqFl.ListUpdate

/-!
# Upserts of keyed records

Records with a key are changed in place, or a record with a new key is added.
Keys then stay distinct, and a reflexive and transitive relation between a
record and what becomes of it holds over any number of upserts.
-/

set_option autoImplicit false

namespace PqFl.Upserts
open PqFl.ListUpdate

variable {α κ : Type*} {key : α → κ} {R : α → α → Prop} {l l' l'' : List α}

/-- Every record is related to the one in its place, or one is added. -/
inductive Upsert (key : α → κ) (R : α → α → Prop) (l : List α) : List α → Prop
  | kept {l' : List α} (h : List.Forall₂ R l l') : Upsert key R l l'
  | added {x : α} (hnew : ∀ y ∈ l, key y ≠ key x) : Upsert key R l (l ++ [x])

def Survive (R : α → α → Prop) (l l' : List α) : Prop := ∀ x ∈ l, ∃ y ∈ l', R x y

theorem Survive.refl (hR : ∀ x, R x x) (l : List α) : Survive R l l := by
  intro x hx
  exact ⟨x, hx, hR x⟩

theorem Survive.trans (hR : ∀ x y z, R x y → R y z → R x z) (h : Survive R l l')
    (h' : Survive R l' l'') : Survive R l l'' := by
  intro x hx
  obtain ⟨y, hy, hxy⟩ := h x hx
  obtain ⟨z, hz, hyz⟩ := h' y hy
  exact ⟨z, hz, hR x y z hxy hyz⟩

theorem Upsert.same (hR : ∀ x, R x x) (h : l' = l) : Upsert key R l l' := by
  rw [h]
  exact .kept (List.forall₂_same.mpr fun x _ => hR x)

theorem Upsert.first (hR : ∀ x, R x x) {p : α → Bool} {f : α → α}
    (h : ∀ x, l.find? p = some x → R x (f x)) : Upsert key R l (updateFirst p f l) := by
  cases hfind : l.find? p with
  | some x => exact .kept (updateFirst_forall₂ hR hfind (h x hfind))
  | none => exact .same hR (updateFirst_absent hfind)

theorem Upsert.every {f : α → α} (h : ∀ x, R x (f x)) : Upsert key R l (l.map f) :=
  .kept (List.forall₂_map_right_iff.mpr (List.forall₂_same.mpr fun x _ => h x))

theorem Upsert.of_map {β : Type*} {g : α → β} (hR : ∀ x y, g y = g x → R x y)
    (h : l'.map g = l.map g) : Upsert key R l l' := by
  apply Upsert.kept
  induction l generalizing l' with
  | nil =>
    obtain rfl := List.map_eq_nil_iff.mp h
    exact .nil
  | cons x l ih =>
    cases l' with
    | nil => cases h
    | cons y l' =>
      rw [List.map_cons, List.map_cons, List.cons.injEq] at h
      exact .cons (hR x y h.1) (ih h.2)

theorem Upsert.survive (hR : ∀ x, R x x) (h : Upsert key R l l') : Survive R l l' := by
  cases h with
  | kept h =>
    intro x hx
    exact forall₂_of_mem_left h hx
  | added _ =>
    intro x hx
    exact ⟨x, List.mem_append_left _ hx, hR x⟩

theorem Upsert.nodup (hkey : ∀ x y, R x y → key y = key x) (h : Upsert key R l l')
    (hl : (l.map key).Nodup) : (l'.map key).Nodup := by
  cases h with
  | kept h =>
    rw [map_eq_of_forall₂ key hkey h]
    exact hl
  | @added x hnew =>
    rw [List.map_append, List.map_singleton, nodup_append_one]
    refine ⟨hl, ?_⟩
    intro k hk
    obtain ⟨y, hy, rfl⟩ := List.mem_map.mp hk
    exact hnew y hy

def Persist (key : α → κ) (R : α → α → Prop) (l l' : List α) : Prop :=
  ∀ x ∈ l, (∃ y ∈ l', key y = key x) ∧ ∀ y ∈ l', key y = key x → R x y

theorem Survive.persist (hkey : ∀ x y, R x y → key y = key x) (h : Survive R l l')
    (hl : (l'.map key).Nodup) : Persist key R l l' := by
  intro x hx
  obtain ⟨z, hz, hxz⟩ := h x hx
  refine ⟨⟨z, hz, hkey x z hxz⟩, ?_⟩
  intro y hy hsame
  have heq : z = y := List.inj_on_of_nodup_map hl hz hy ((hkey x z hxz).trans hsame.symm)
  rw [← heq]
  exact hxz

end PqFl.Upserts
