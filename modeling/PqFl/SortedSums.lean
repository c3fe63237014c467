import Mathlib.Algebra.Order.BigOperators.Group.List
import Mathlib.Data.List.Sort
import Mathlib.Tactic.Linarith

/-!
# Sums of the smallest values

In a sorted list the values up to a bound are the first ones, as many as the
bound has. So a sum of the first values is bounded from above by counting small
values, and from below by counting them too.
-/

set_option autoImplicit false

namespace PqFl.SortedSums

section Counting
variable {α : Type*} [LinearOrder α] {l : List α}

theorem countP_of_head_gt {x bound : α} (hl : (x::l).Pairwise (· ≤ ·)) (hx : bound < x) :
    (x::l).countP (· ≤ bound) = 0 := by
  rw [List.countP_eq_zero]
  intro y hy
  rcases List.mem_cons.mp hy with rfl | hy
  · simpa using hx
  · have hle := (List.pairwise_cons.mp hl).1 y hy
    simpa using hx.trans_le hle

theorem le_iff_lt_countP (hl : l.Pairwise (· ≤ ·)) {i : ℕ} {x bound : α} (hx : l[i]? = some x) :
    x ≤ bound ↔ i < l.countP (· ≤ bound) := by
  induction l generalizing i with
  | nil => simp at hx
  | cons y l ih =>
    by_cases hy : y ≤ bound
    · rw [List.countP_cons_of_pos (by simpa using hy)]
      cases i with
      | zero =>
        obtain rfl : y = x := by simpa using hx
        simpa using hy
      | succ i =>
        rw [ih (List.pairwise_cons.mp hl).2 (by simpa using hx)]
        omega
    · have hgt := not_le.mp hy
      rw [countP_of_head_gt hl hgt]
      have hle : y ≤ x := by
        rcases List.mem_cons.mp (List.mem_of_getElem? hx) with rfl | hmem
        · exact le_rfl
        · exact (List.pairwise_cons.mp hl).1 x hmem
      have hnot := not_le.mpr (hgt.trans_le hle)
      simpa using hnot

omit [LinearOrder α] in
theorem mem_after_first {k : ℕ} {x : α} (hx : x ∈ (l.drop 1).take k) :
    ∃ i, i ≤ k ∧ l[i]? = some x := by
  obtain ⟨j, hj⟩ := List.mem_iff_getElem?.mp hx
  have hlt : j < k := by
    obtain ⟨hj', -⟩ := List.getElem?_eq_some_iff.mp hj
    rw [List.length_take] at hj'
    omega
  rw [List.getElem?_take_of_lt hlt, List.getElem?_drop] at hj
  exact ⟨1 + j, by omega, hj⟩

end Counting

section Sums
variable {K : Type*} [Field K] [LinearOrder K] [IsStrictOrderedRing K] {l : List K}

/-- The `k` values after the first one. -/
def sumAfterFirst (l : List K) (k : ℕ) : K := ((l.drop 1).take k).sum

theorem sumAfterFirst_le (hl : l.Pairwise (· ≤ ·)) {k : ℕ} {bound : K}
    (h : k + 1 ≤ l.countP (· ≤ bound)) : sumAfterFirst l k ≤ k * bound := by
  have hlength : ((l.drop 1).take k).length = k := by
    have hcount : l.countP (· ≤ bound) ≤ l.length := List.countP_le_length
    rw [List.length_take, List.length_drop]
    omega
  have hsum := List.sum_le_card_nsmul ((l.drop 1).take k) bound (by
    intro x hx
    obtain ⟨i, hi, hget⟩ := mem_after_first hx
    exact (le_iff_lt_countP hl hget).mpr (by omega))
  rw [hlength, nsmul_eq_mul] at hsum
  exact hsum

theorem lt_sumAfterFirst (hl : l.Pairwise (· ≤ ·)) (hnonneg : ∀ x ∈ l, 0 ≤ x) {k : ℕ} {bound : K}
    (hk : 1 ≤ k) (hlength : k < l.length) (h : l.countP (· ≤ bound) ≤ k) :
    bound < sumAfterFirst l k := by
  have hget : l[k]? = some l[k] := List.getElem?_eq_getElem hlength
  have hbound : bound < l[k] := by
    by_contra hle
    have := (le_iff_lt_countP hl hget).mp (not_lt.mp hle)
    omega
  have hmem : l[k] ∈ (l.drop 1).take k := by
    rw [List.mem_iff_getElem?]
    refine ⟨k - 1, ?_⟩
    rw [List.getElem?_take_of_lt (by omega), List.getElem?_drop]
    have hone : 1 + (k - 1) = k := by omega
    rw [hone]
    exact hget
  have hle := List.single_le_sum (fun x hx =>
    hnonneg x (List.mem_of_mem_drop (List.mem_of_mem_take hx))) l[k] hmem
  exact hbound.trans_le hle

end Sums

section Search
variable {α : Type*} [LinearOrder α]

/-- Keeps the index with the smaller score, the earlier one of two equal ones. -/
def keepBetter (score : ℕ → α) (best : ℕ × α) (i : ℕ) : ℕ × α :=
  if score i < best.2 then (i, score i) else best

theorem foldl_keepBetter (score : ℕ → α) (indices : List ℕ) (best : ℕ × α) :
    (indices.foldl (keepBetter score) best).2 ≤ best.2 ∧
    (∀ i ∈ indices, (indices.foldl (keepBetter score) best).2 ≤ score i) ∧
    (indices.foldl (keepBetter score) best = best ∨
      ∃ i ∈ indices, indices.foldl (keepBetter score) best = (i, score i)) := by
  induction indices generalizing best with
  | nil => simp
  | cons i indices ih =>
    obtain ⟨hbest, hall, hfrom⟩ := ih (keepBetter score best i)
    have hstep : (keepBetter score best i).2 ≤ best.2 ∧ (keepBetter score best i).2 ≤ score i ∧
        (keepBetter score best i = best ∨ keepBetter score best i = (i, score i)) := by
      unfold keepBetter
      by_cases hlt : score i < best.2
      · rw [if_pos hlt]
        exact ⟨hlt.le, le_rfl, .inr rfl⟩
      · rw [if_neg hlt]
        exact ⟨le_rfl, not_lt.mp hlt, .inl rfl⟩
    rw [List.foldl_cons]
    refine ⟨hbest.trans hstep.1, ?_, ?_⟩
    · intro j hj
      rcases List.mem_cons.mp hj with rfl | hj
      · exact hbest.trans hstep.2.1
      · exact hall j hj
    · rcases hfrom with hsame | ⟨j, hj, heq⟩
      · rcases hstep.2.2 with hkept | htaken
        · exact .inl (hsame.trans hkept)
        · exact .inr ⟨i, List.mem_cons_self, hsame.trans htaken⟩
      · exact .inr ⟨j, List.mem_cons_of_mem _ hj, heq⟩

theorem foldl_keepBetter_smallest {score : ℕ → α} {n : ℕ} {worst : α} (hn : 0 < n)
    (h : ∀ i < n, score i < worst) (start : ℕ) :
    ((List.range n).foldl (keepBetter score) (start, worst)).1 < n ∧
    ∀ i < n, score ((List.range n).foldl (keepBetter score) (start, worst)).1 ≤ score i := by
  obtain ⟨-, hall, hfrom⟩ := foldl_keepBetter score (List.range n) (start, worst)
  have hzero := hall 0 (List.mem_range.mpr hn)
  rcases hfrom with hsame | ⟨i, hi, heq⟩
  · rw [hsame] at hzero
    exact absurd (h 0 hn) (not_lt.mpr hzero)
  · rw [heq] at hall ⊢
    exact ⟨List.mem_range.mp hi, fun j hj => hall j (List.mem_range.mpr hj)⟩

end Search

end PqFl.SortedSums
