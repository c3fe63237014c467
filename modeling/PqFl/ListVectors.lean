import Mathlib.Analysis.InnerProductSpace.PiL2

/-!
# Lists of reals as vectors

A list of `n` reals has the coordinates of a vector of Euclidean space. What is
computed from lists place by place is then said with the norm of that space.
-/

set_option autoImplicit false

namespace PqFl.ListVectors

noncomputable section

variable {n : ℕ}

/-- Positions which the list does not have are zero. -/
def vector (n : ℕ) (l : List ℝ) : EuclideanSpace ℝ (Fin n) :=
  (EuclideanSpace.equiv (Fin n) ℝ).symm (fun i => (l[i.val]?).getD 0)

@[simp] theorem vector_apply (l : List ℝ) (i : Fin n) : vector n l i = (l[i.val]?).getD 0 := rfl

theorem vector_of_getElem? {l : List ℝ} {i : Fin n} {x : ℝ} (h : l[i.val]? = some x) :
    vector n l i = x := by
  rw [vector_apply, h, Option.getD_some]

theorem getElem?_vector {l : List ℝ} (h : l.length = n) (i : Fin n) :
    l[i.val]? = some (vector n l i) := by
  have hi : i.val < l.length := by
    rw [h]
    exact i.isLt
  rw [vector_apply, List.getElem?_eq_getElem hi, Option.getD_some]

theorem vector_ofFn (x : EuclideanSpace ℝ (Fin n)) : vector n (List.ofFn x) = x := by
  ext i
  apply vector_of_getElem?
  rw [List.getElem?_ofFn, dif_pos i.isLt]

theorem vector_zipWith (f : ℝ → ℝ → ℝ) {u v : List ℝ} (hu : u.length = n) (hv : v.length = n)
    (i : Fin n) : vector n (List.zipWith f u v) i = f (vector n u i) (vector n v i) := by
  apply vector_of_getElem?
  rw [List.getElem?_zipWith, getElem?_vector hu, getElem?_vector hv]

theorem vector_add {u v : List ℝ} (hu : u.length = n) (hv : v.length = n) :
    vector n (List.zipWith (· + ·) u v) = vector n u + vector n v := by
  ext i
  exact vector_zipWith _ hu hv i

theorem vector_sub {u v : List ℝ} (hu : u.length = n) (hv : v.length = n) :
    vector n (List.zipWith (· - ·) u v) = vector n u - vector n v := by
  ext i
  exact vector_zipWith _ hu hv i

theorem vector_map (f : ℝ → ℝ) {l : List ℝ} (h : l.length = n) (i : Fin n) :
    vector n (l.map f) i = f (vector n l i) := by
  apply vector_of_getElem?
  rw [List.getElem?_map, getElem?_vector h, Option.map_some]

theorem vector_scale (a : ℝ) {l : List ℝ} (h : l.length = n) :
    vector n (l.map (· * a)) = a • vector n l := by
  ext i
  rw [vector_map _ h]
  exact mul_comm _ _

theorem vector_zero : vector n (List.replicate n 0) = 0 := by
  ext i
  apply vector_of_getElem?
  rw [List.getElem?_replicate, if_pos i.isLt]
  rfl

theorem sum_vector (f : ℝ → ℝ) {l : List ℝ} (h : l.length = n) :
    (l.map f).sum = ∑ i, f (vector n l i) := by
  subst h
  rw [← Fin.sum_univ_fun_getElem]
  apply Finset.sum_congr rfl
  intro i _
  rw [vector_of_getElem? (List.getElem?_eq_getElem i.isLt)]

theorem norm_vector {l : List ℝ} (h : l.length = n) :
    ‖vector n l‖ = √ (l.map (fun x => x * x)).sum := by
  rw [EuclideanSpace.norm_eq, sum_vector _ h]
  congr 1
  apply Finset.sum_congr rfl
  intro i _
  rw [Real.norm_eq_abs, sq_abs, sq]

end

end PqFl.ListVectors
