import PqFl.AggregationOrder
import PqFl.KrumLoops

/-!
# What Krum selects

The source sorts whole rows, with the distance of a vector to itself, and skips
one entry. The skipped entry is a zero, also where other vectors are at distance
zero, so that a score is the sum over the closest other vectors.
-/

set_option autoImplicit false

namespace PqFl.KrumSelection
open PqFl.Aggregation PqFl.ExactArithmetic PqFl.SortedSums PqFl.KrumResilience
open PqFl.AggregationOrder PqFl.CheckedLoops PqFl.KrumLoops

noncomputable section

def sumSmallest (k : ℕ) (values : List ℝ) : ℝ :=
  ((values.insertionSort (· ≤ ·)).take k).sum

def otherClients (weights : WeightMap ℝ) (a : (_ : String) × List ℝ) :
    List ((_ : String) × List ℝ) :=
  weights.entries.filter (fun e => e.1 ≠ a.1)

/-- The sum of the squared distances to the closest other vectors. -/
def otherScore (weights : WeightMap ℝ) (a : (_ : String) × List ℝ) : ℝ :=
  sumSmallest (neighbours weights.entries.length)
    ((otherClients weights a).map (fun e => squaredDistance a.2 e.2))

theorem filter_absent {l : List ((_ : String) × List ℝ)} {client : String}
    (h : client ∉ l.keys) : l.filter (fun e => e.1 ≠ client) = l := by
  rw [List.filter_eq_self]
  intro e he
  rw [decide_eq_true_eq]
  rintro rfl
  exact h (List.mem_keys_of_mem he)

theorem entries_perm {weights : WeightMap ℝ} {a : (_ : String) × List ℝ}
    (ha : a ∈ weights.entries) : weights.entries.Perm (a :: otherClients weights a) := by
  obtain ⟨before, after, hsplit⟩ := List.append_of_mem ha
  have hperm : weights.entries.Perm (a :: (before ++ after)) := by
    rw [hsplit]
    exact List.perm_middle
  have hkeys := (List.perm_nodupKeys hperm).mp weights.nodupKeys
  have habsent : a.1 ∉ (before ++ after).keys := (List.nodupKeys_cons.mp hkeys).1
  have hothers : (otherClients weights a).Perm (before ++ after) := by
    have hfiltered := hperm.filter (fun e => decide (e.1 ≠ a.1))
    rw [List.filter_cons_of_neg (by simp), filter_absent habsent] at hfiltered
    exact hfiltered
  exact hperm.trans (hothers.symm.cons a)

theorem sorted_row {weights : WeightMap ℝ} {a : (_ : String) × List ℝ}
    (ha : a ∈ weights.entries) :
    sortFloats ((vectorsOf weights).map (squaredDistance a.2)) =
      0 :: (((otherClients weights a).map (fun e => squaredDistance a.2 e.2)).insertionSort
        (· ≤ ·)) := by
  have hsorted := List.pairwise_insertionSort (fun x y : ℝ => x ≤ y)
    ((otherClients weights a).map (fun e => squaredDistance a.2 e.2))
  have hperm := List.perm_insertionSort (fun x y : ℝ => x ≤ y)
    ((otherClients weights a).map (fun e => squaredDistance a.2 e.2))
  apply sortFloats_eq
  · have hrow := (entries_perm ha).map (fun e => squaredDistance a.2 e.2)
    rw [List.map_cons, squaredDistance_self] at hrow
    rw [vectorsOf, List.map_map]
    exact hrow.trans (hperm.symm.cons 0)
  · rw [List.pairwise_cons]
    refine ⟨?_, hsorted⟩
    intro x hx
    obtain ⟨e, -, rfl⟩ := List.mem_map.mp (hperm.mem_iff.mp hx)
    exact squaredDistance_nonneg a.2 e.2

theorem score_eq_otherScore {weights : WeightMap ℝ} {a : (_ : String) × List ℝ}
    (ha : a ∈ weights.entries) : score weights a.2 = otherScore weights a := by
  rw [score, sorted_row ha]
  rfl

/-- The matrix has a place for every index which is used, and the vector is one
with the smallest score. -/
structure Selected (weights : WeightMap ℝ) (result : List ℝ) : Prop where
  neighbours : 1 ≤ neighbours weights.entries.length ∧
    neighbours weights.entries.length ≤ weights.entries.length - 1
  matrix : ∃ distances, fillDistances (vectorsOf weights) = some distances ∧
    Square weights.entries.length distances
  indices : ∀ j, 1 ≤ j →
    j ≤ min (KrumResilience.neighbours weights.entries.length) (weights.entries.length - 1) →
      j < weights.entries.length
  loops : krumLoops weights = some result
  smallest : ∃ a ∈ weights.entries, result = a.2 ∧
    ∀ b ∈ weights.entries, otherScore weights a ≤ otherScore weights b

/-- Krum selects a vector with the smallest sum of squared distances to its
closest other vectors. -/
theorem aggKrum_selects {weights : WeightMap ℝ} {dim : ℕ} (hn : 3 ≤ weights.entries.length)
    (hdim : ∀ e ∈ weights.entries, e.2.length = dim)
    (hscores : ∀ a ∈ weights.entries, otherScore weights a < Arith.maxValue) :
    Selected weights (aggKrum weights) := by
  obtain ⟨hone, hless, -, -⟩ := neighbours_bounds hn
  have hlength : (vectorsOf weights).length = weights.entries.length := List.length_map _
  constructor
  · omega
  · have hdim' : ∀ v ∈ vectorsOf weights, v.length = dim := by
      intro v hv
      obtain ⟨e, he, rfl⟩ := List.mem_map.mp hv
      exact hdim e he
    obtain ⟨distances, hfill, hsquare, -⟩ := fillDistances_eq hdim'
    rw [hlength] at hsquare
    exact ⟨distances, hfill, hsquare⟩
  · intro j _ hj
    omega
  · exact krumLoops_eq hdim
  · have hbelow : ∀ i < weights.entries.length, krumScore (vectorsOf weights)
        (neighbours weights.entries.length) i < Arith.maxValue := by
      intro i hi
      have hmem := List.getElem_mem hi
      rw [krumScore_score hn (List.getElem?_eq_getElem hi), score_eq_otherScore hmem]
      exact hscores _ hmem
    obtain ⟨a, ha, hresult, hsmallest⟩ := aggKrum_smallest hn hbelow
    refine ⟨a, ha, hresult, ?_⟩
    intro b hb
    rw [← score_eq_otherScore ha, ← score_eq_otherScore hb]
    exact hsmallest b hb

theorem aggKrum_selects_threeClients : Selected threeClients (aggKrum threeClients) := by
  apply aggKrum_selects (by decide) threeClients_dimension
  intro a ha
  rw [← score_eq_otherScore ha]
  obtain ⟨i, hi, rfl⟩ := List.mem_iff_getElem.mp ha
  rw [← krumScore_score (by decide) (List.getElem?_eq_getElem hi)]
  exact threeClients_scores i hi

end

end PqFl.KrumSelection
