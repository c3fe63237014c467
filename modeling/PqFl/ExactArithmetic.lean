import Mathlib.Analysis.SpecialFunctions.Sqrt
import PqFl.Aggregation
import PqFl.SortedSums

/-!
# Aggregation in exact arithmetic

The same functions over the reals, where they can be compared with the
quantities they are meant to compute. Only the largest float stays what it is.
-/

set_option autoImplicit false

namespace PqFl.ExactArithmetic
open PqFl.Aggregation PqFl.SortedSums

noncomputable section

open Classical in
instance : Arith ℝ where
  ofInt n := n
  sqrt := Real.sqrt
  lt x y := decide (x < y)
  isFinite _ := true
  maxValue := (2 - 1 / 2^23) * 2^127
  floorSize x := ⌊x⌋₊

theorem lt_exact (x y : ℝ) : Arith.lt x y = true ↔ x < y := by
  simp [Arith.lt]

theorem sum_exact (l : List ℝ) : Aggregation.sum l = l.sum := by
  show l.foldl (· + ·) ((0 : ℤ) : ℝ) = l.sum
  rw [Int.cast_zero, List.sum_eq_foldl]

theorem squaredDistance_exact (u v : List ℝ) :
    squaredDistance u v = (List.zipWith (fun x y => (x - y) ^ 2) u v).sum := by
  unfold squaredDistance
  rw [sum_exact]
  congr 2
  funext x y
  exact (sq (x - y)).symm

theorem squaredDistance_comm (u v : List ℝ) : squaredDistance u v = squaredDistance v u := by
  rw [squaredDistance_exact, squaredDistance_exact, List.zipWith_comm]
  congr 2
  funext x y
  ring

theorem squaredDistance_nonneg (u v : List ℝ) : 0 ≤ squaredDistance u v := by
  rw [squaredDistance_exact]
  apply List.sum_nonneg
  intro x hx
  obtain ⟨i, hi, rfl⟩ := List.mem_iff_getElem.mp hx
  rw [List.getElem_zipWith]
  exact sq_nonneg _

theorem squaredDistance_self (u : List ℝ) : squaredDistance u u = 0 := by
  rw [squaredDistance_exact]
  induction u with
  | nil => rfl
  | cons x u ih =>
    rw [List.zipWith_cons_cons, List.sum_cons, ih]
    ring

theorem eq_of_squaredDistance {u v : List ℝ} (hlength : u.length = v.length)
    (h : squaredDistance u v ≤ 0) : u = v := by
  induction u generalizing v with
  | nil => exact (List.eq_nil_of_length_eq_zero hlength.symm).symm
  | cons x u ih =>
    cases v with
    | nil => cases hlength
    | cons y v =>
      have hrest := squaredDistance_nonneg u v
      rw [squaredDistance_exact] at h hrest
      rw [List.zipWith_cons_cons, List.sum_cons] at h
      have hx := sq_nonneg (x - y)
      have hzero : x - y = 0 := pow_eq_zero_iff (two_ne_zero) |>.mp (by linarith)
      have htail : squaredDistance u v ≤ 0 := by
        rw [squaredDistance_exact]
        linarith
      rw [ih (by simpa using hlength) htail, sub_eq_zero.mp hzero]

theorem sortFloats_perm (values : List ℝ) : (sortFloats values).Perm values :=
  List.perm_insertionSort _ values

theorem sortFloats_sorted (values : List ℝ) : (sortFloats values).Pairwise (· ≤ ·) := by
  have hle : ∀ x y : ℝ, Arith.lt y x = false ↔ x ≤ y := by
    intro x y
    rw [Bool.eq_false_iff, Ne, lt_exact, not_lt]
  have htotal : Std.Total (fun x y : ℝ => Arith.lt y x = false) :=
    ⟨fun x y => by rw [hle, hle]; exact le_total x y⟩
  have htrans : IsTrans ℝ (fun x y : ℝ => Arith.lt y x = false) :=
    ⟨fun x y z => by rw [hle, hle, hle]; exact le_trans⟩
  have hsorted := List.pairwise_insertionSort (fun x y : ℝ => Arith.lt y x = false) values
  exact hsorted.imp (fun {x y} h => (hle x y).mp h)

theorem distanceRow_exact {vectors : List (List ℝ)} {i : ℕ} {u : List ℝ}
    (hu : vectors[i]? = some u) : distanceRow vectors i = vectors.map (squaredDistance u) := by
  unfold distanceRow
  rw [List.mapIdx_eq_iff]
  intro j
  rw [List.getElem?_map, hu]
  cases hv : vectors[j]? with
  | none => rfl
  | some v =>
    simp only [Option.map_some, Option.some.injEq]
    by_cases hij : i < j
    · rw [if_pos hij]
    · rw [if_neg hij]
      by_cases hji : j < i
      · rw [if_pos hji, squaredDistance_comm]
      · obtain rfl : i = j := by omega
        rw [hu] at hv
        obtain rfl := Option.some.inj hv
        rw [if_neg hji, squaredDistance_self]
        exact Int.cast_zero.symm

theorem krumScore_exact {vectors : List (List ℝ)} {i : ℕ} {u : List ℝ}
    (hu : vectors[i]? = some u) {k : ℕ} (hk : k < vectors.length) : krumScore vectors k i =
      sumAfterFirst (sortFloats (vectors.map (squaredDistance u))) k := by
  have hmin : min k (vectors.length - 1) = k := by omega
  rw [krumScore, sum_exact, distanceRow_exact hu, hmin, sumAfterFirst]

theorem krumBest_exact (vectors : List (List ℝ)) (k : ℕ) : krumBest vectors k =
    ((List.range vectors.length).foldl (keepBetter (krumScore vectors k))
      (0, Arith.maxValue)).1 := by
  unfold krumBest
  congr 2
  funext best i
  unfold keepBetter
  simp only [lt_exact]

end

end PqFl.ExactArithmetic
