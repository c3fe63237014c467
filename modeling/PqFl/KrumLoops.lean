import PqFl.Aggregation
import PqFl.CheckedLoops

/-!
# The loops of Krum

`AggKrum` fills a matrix of distances in a triangular loop, sorts each row and
adds up the entries from the second one on. Here every index is checked: with
vectors of one dimension none is out of range, and the result is that of
`aggKrum`.
-/

set_option autoImplicit false

namespace PqFl.KrumLoops
open PqFl.Aggregation PqFl.CheckedLoops

variable {F : Type} [Arith F]

def distanceStep (u v : List F) (dist : F) (d : ℕ) : Option F := do
  let x ← u[d]?
  let y ← v[d]?
  some (dist + (x - y) * (x - y))

def distanceLoop (u v : List F) : Option F :=
  forLoop 0 u.length (distanceStep u v) (Arith.ofInt 0)

/-- One pass of the inner loop. -/
def fillPair (vectors : List (List F)) (i : ℕ) (distances : List (List F)) (j : ℕ) :
    Option (List (List F)) := do
  let u ← vectors[i]?
  let v ← vectors[j]?
  let dist ← distanceLoop u v
  let distances ← setAt distances i j dist
  setAt distances j i dist

def fillDistances (vectors : List (List F)) : Option (List (List F)) :=
  forLoop 0 vectors.length (fun distances i =>
      forLoop (i + 1) vectors.length (fillPair vectors i) distances)
    (List.replicate vectors.length (List.replicate vectors.length (Arith.ofInt 0)))

def scoreStep (candidate : List F) (score : F) (j : ℕ) : Option F := do
  let x ← candidate[j]?
  some (score + x)

def scoreLoop (candidate : List F) (k n : ℕ) : Option F :=
  forLoop 1 (min k (n - 1) + 1) (scoreStep candidate) (Arith.ofInt 0)

def bestStep (distances : List (List F)) (k n : ℕ) (best : ℕ × F) (i : ℕ) : Option (ℕ × F) := do
  let candidate ← distances[i]?
  let score ← scoreLoop (sortFloats candidate) k n
  some (if Arith.lt score best.2 then (i, score) else best)

def bestLoop (distances : List (List F)) (k n : ℕ) : Option (ℕ × F) :=
  forLoop 0 n (bestStep distances k n) (0, Arith.maxValue)

/-- `AggKrum` with checked indices. -/
def krumLoops (weights : WeightMap F) : Option (List F) :=
  let n := weights.entries.length
  if n < 3 then
    some (aggFedAvg (fun _ => Arith.ofInt 0) weights
      (weights.entries.foldl (fun sizes entry => sizes.insert entry.1 1) ∅))
  else do
    let vectors := weights.entries.map (·.2)
    let f := if n ≥ 3 then (n - 3) / 2 else 0
    let k := if n > f + 2 then n - f - 2 else 1
    let distances ← fillDistances vectors
    let best ← bestLoop distances k n
    vectors[best.1]?

theorem sum_append_one (l : List F) (x : F) :
    Aggregation.sum (l ++ [x]) = Aggregation.sum l + x := by
  rw [Aggregation.sum, List.foldl_append]
  rfl

theorem distanceLoop_eq {u v : List F} (h : u.length = v.length) :
    distanceLoop u v = some (squaredDistance u v) := by
  obtain ⟨dist, hloop, hdist⟩ := forLoop_invariant (fun d dist =>
    dist = Aggregation.sum (List.zipWith (fun x y : F => (x - y) * (x - y)) (u.take d) (v.take d)))
    (f := distanceStep u v) u.length (Nat.zero_add _) (s := Arith.ofInt 0) rfl (by
      intro d dist _ hd hdist
      have hd' : d < v.length := by omega
      refine ⟨dist + (u[d] - v[d]) * (u[d] - v[d]), ?_, ?_⟩
      · rw [distanceStep, List.getElem?_eq_getElem hd, List.getElem?_eq_getElem hd']
        rfl
      · rw [List.take_succ_eq_append_getElem hd, List.take_succ_eq_append_getElem hd',
          List.zipWith_append (by rw [List.length_take, List.length_take]; omega), hdist]
        exact (sum_append_one _ _).symm)
  rw [List.take_length, h, List.take_length] at hdist
  rw [distanceLoop, hloop, hdist]
  rfl

theorem scoreLoop_eq {candidate : List F} {k n : ℕ} (h : candidate.length = n) (hn : 0 < n) :
    scoreLoop candidate k n =
      some (Aggregation.sum ((candidate.drop 1).take (min k (n - 1)))) := by
  obtain ⟨score, hloop, hscore⟩ := forLoop_invariant (fun j score =>
    score = Aggregation.sum ((candidate.drop 1).take (j - 1)))
    (f := scoreStep candidate) (min k (n - 1)) (Nat.add_comm 1 _) (s := Arith.ofInt 0) rfl (by
      intro j score hone hj hscore
      have hj' : j < candidate.length := by omega
      refine ⟨score + candidate[j], ?_, ?_⟩
      · rw [scoreStep, List.getElem?_eq_getElem hj']
        rfl
      · have hdrop : j - 1 < (candidate.drop 1).length := by
          rw [List.length_drop]
          omega
        have hget : (candidate.drop 1)[j - 1] = candidate[j] := by
          rw [List.getElem_drop]
          congr 1
          omega
        have hcount : j + 1 - 1 = j - 1 + 1 := by omega
        rw [hcount, List.take_succ_eq_append_getElem hdrop, hget, sum_append_one, hscore])
  rw [scoreLoop, hloop, hscore, Nat.add_sub_cancel]

section
variable {vectors : List (List F)}

/-- The distance of two vectors, the earlier one first. -/
def between (vectors : List (List F)) (a b : ℕ) : F :=
  squaredDistance ((vectors[min a b]?).getD []) ((vectors[max a b]?).getD [])

/-- The pairs before column `c` of row `r` are filled in, on both sides. -/
structure Filled (vectors : List (List F)) (r c : ℕ) (m : List (List F)) : Prop where
  square : Square vectors.length m
  entries : ∀ a < vectors.length, ∀ b < vectors.length, entryAt m a b =
    some (if a ≠ b ∧ (min a b < r ∨ min a b = r ∧ max a b < c) then between vectors a b
      else Arith.ofInt 0)

theorem filled_start (vectors : List (List F)) :
    Filled vectors 0 1 (List.replicate vectors.length
      (List.replicate vectors.length (Arith.ofInt 0))) where
  square := square_replicate _ _
  entries := by
    intro a ha b hb
    rw [entryAt_replicate ha hb, if_neg (by omega)]

theorem fillPair_filled {dim : ℕ} (hdim : ∀ v ∈ vectors, v.length = dim) {r c : ℕ}
    (hrc : r < c) (hc : c < vectors.length) {m : List (List F)} (h : Filled vectors r c m) :
    ∃ m', fillPair vectors r m c = some m' ∧ Filled vectors r (c + 1) m' := by
  have hr : r < vectors.length := by omega
  have hdist : between vectors r c = squaredDistance vectors[r] vectors[c] := by
    rw [between, Nat.min_eq_left hrc.le, Nat.max_eq_right hrc.le, List.getElem?_eq_getElem hr,
      List.getElem?_eq_getElem hc]
    rfl
  have hloop : distanceLoop vectors[r] vectors[c] = some (between vectors r c) := by
    rw [hdist]
    apply distanceLoop_eq
    rw [hdim _ (List.getElem_mem hr), hdim _ (List.getElem_mem hc)]
  obtain ⟨m₁, hset, hsquare, hentries⟩ := setAt_some h.square hr hc (between vectors r c)
  obtain ⟨m₂, hset', hsquare', hentries'⟩ := setAt_some hsquare hc hr (between vectors r c)
  refine ⟨m₂, ?_, hsquare', ?_⟩
  · rw [fillPair, List.getElem?_eq_getElem hr, List.getElem?_eq_getElem hc]
    show (distanceLoop vectors[r] vectors[c]).bind _ = _
    rw [hloop]
    show (setAt m r c (between vectors r c)).bind _ = _
    rw [hset]
    exact hset'
  · intro a ha b hb
    rw [hentries', hentries, h.entries a ha b hb]
    by_cases hlower : a = c ∧ b = r
    · obtain ⟨rfl, rfl⟩ := hlower
      have hcomm : between vectors b a = between vectors a b := by
        rw [between, between, Nat.min_comm, Nat.max_comm]
      rw [if_pos ⟨rfl, rfl⟩, if_pos (by omega), hcomm]
    · rw [if_neg hlower]
      by_cases hupper : a = r ∧ b = c
      · obtain ⟨rfl, rfl⟩ := hupper
        rw [if_pos ⟨rfl, rfl⟩, if_pos (by omega)]
      · rw [if_neg hupper]
        have hsame : (a ≠ b ∧ (min a b < r ∨ min a b = r ∧ max a b < c)) ↔
            (a ≠ b ∧ (min a b < r ∨ min a b = r ∧ max a b < c + 1)) := by
          omega
        simp only [hsame]

theorem filled_row {r : ℕ} {m : List (List F)} (h : Filled vectors r vectors.length m) :
    Filled vectors (r + 1) (r + 2) m where
  square := h.square
  entries := by
    intro a ha b hb
    have hsame : (a ≠ b ∧ (min a b < r ∨ min a b = r ∧ max a b < vectors.length)) ↔
        (a ≠ b ∧ (min a b < r + 1 ∨ min a b = r + 1 ∧ max a b < r + 2)) := by
      omega
    rw [h.entries a ha b hb]
    simp only [hsame]

theorem fillDistances_eq {dim : ℕ} (hdim : ∀ v ∈ vectors, v.length = dim) :
    ∃ m, fillDistances vectors = some m ∧ Square vectors.length m ∧
      ∀ i < vectors.length, m[i]? = some (distanceRow vectors i) := by
  obtain ⟨m, hloop, hfilled⟩ := forLoop_invariant (fun r m => Filled vectors r (r + 1) m)
    (f := fun m i => forLoop (i + 1) vectors.length (fillPair vectors i) m)
    vectors.length (Nat.zero_add _) (filled_start vectors) (by
      intro r m _ hr h
      obtain ⟨m', hrow, hfilled⟩ := forLoop_invariant (fun c m => Filled vectors r c m)
        (f := fillPair vectors r) (vectors.length - (r + 1)) (by omega) h
        (fun c m hle hc h => fillPair_filled hdim (by omega) hc h)
      exact ⟨m', hrow, filled_row hfilled⟩)
  refine ⟨m, hloop, hfilled.square, ?_⟩
  intro i hi
  apply row_of_entries hfilled.square hi
  · rw [distanceRow, List.length_mapIdx]
  · intro j hj
    rw [hfilled.entries i hi j hj, distanceRow, List.getElem?_mapIdx,
      List.getElem?_eq_getElem hj, List.getElem?_eq_getElem hi, Option.map_some]
    simp only [Option.some.injEq]
    by_cases hij : i < j
    · rw [if_pos hij, if_pos (by omega), between, Nat.min_eq_left hij.le, Nat.max_eq_right hij.le,
        List.getElem?_eq_getElem hj, List.getElem?_eq_getElem hi]
      rfl
    · rw [if_neg hij]
      by_cases hji : j < i
      · rw [if_pos hji, if_pos (by omega), between, Nat.min_eq_right hji.le,
          Nat.max_eq_left hji.le, List.getElem?_eq_getElem hj, List.getElem?_eq_getElem hi]
        rfl
      · rw [if_neg hji, if_neg (by omega)]
        rfl

end

theorem bestLoop_eq {vectors distances : List (List F)} {k : ℕ}
    (hrows : ∀ i < vectors.length, distances[i]? = some (distanceRow vectors i)) :
    ∃ best, bestLoop distances k vectors.length = some best ∧ best.1 = krumBest vectors k := by
  refine ⟨_, forLoop_fold (g := fun best i =>
    if Arith.lt (krumScore vectors k i) best.2 then (i, krumScore vectors k i) else best)
    vectors.length (Nat.zero_add _) ?_ _, ?_⟩
  · intro i best _ hi
    have hlength : (sortFloats (distanceRow vectors i)).length = vectors.length := by
      rw [sortFloats, List.length_insertionSort, distanceRow, List.length_mapIdx]
    rw [bestStep, hrows i hi]
    show (scoreLoop (sortFloats (distanceRow vectors i)) k vectors.length).bind _ = _
    rw [scoreLoop_eq hlength (by omega)]
    rfl
  · rw [krumBest, List.range_eq_range']

theorem krumLoops_eq {weights : WeightMap F} {dim : ℕ}
    (hdim : ∀ e ∈ weights.entries, e.2.length = dim) :
    krumLoops weights = some (aggKrum weights) := by
  unfold krumLoops aggKrum
  simp only
  by_cases hn : weights.entries.length < 3
  · rw [if_pos hn, if_pos hn]
  rw [if_neg hn, if_neg hn, if_pos (by omega : weights.entries.length ≥ 3)]
  have hlength : (weights.entries.map (·.2)).length = weights.entries.length := List.length_map _
  have hdim' : ∀ v ∈ weights.entries.map (·.2), v.length = dim := by
    intro v hv
    obtain ⟨e, he, rfl⟩ := List.mem_map.mp hv
    exact hdim e he
  generalize hvectors : weights.entries.map (·.2) = vectors at *
  rw [← hlength]
  obtain ⟨distances, hfill, -, hrows⟩ := fillDistances_eq hdim'
  generalize hk : (if vectors.length > (vectors.length - 3) / 2 + 2 then
    vectors.length - (vectors.length - 3) / 2 - 2 else 1) = k
  obtain ⟨best, hloop, hbest⟩ := bestLoop_eq (k := k) hrows
  have hlt : krumBest vectors k < vectors.length := by
    apply krumBest_lt
    intro hnil
    rw [hnil, List.length_nil] at hlength
    omega
  rw [hfill]
  show (bestLoop distances k vectors.length).bind _ = _
  rw [hloop]
  show vectors[best.1]? = _
  rw [hbest, List.getElem?_eq_getElem hlt]
  rfl

end PqFl.KrumLoops
