import Mathlib.Data.List.Sort
import PqFl.CryptoEngine

/-!
# Clipping and aggregation

The numeric part of `weight_buffer.cpp` over a type of single precision
floats. An `unordered_map` is a list of entries in order of insertion; the
order in which the source visits the entries is unspecified.

Every operation rounds on its own. Where a compiler fuses a product with the
sum around it, the product is not rounded, and results may differ in the last
place.
-/

set_option autoImplicit false

namespace PqFl.Aggregation
open PqFl.Crypto

/-- The operations of `float` which the server computes with. -/
class Arith (F : Type) extends Add F, Sub F, Mul F, Div F where
  ofInt : ℤ → F
  sqrt : F → F
  lt : F → F → Bool
  isFinite : F → Bool
  maxValue : F
  floorSize : F → ℕ

/-- Also the copy of a value to and from its four bytes. -/
class FloatArith (F : Type) extends Arith F where
  toBytes : F → Block 4
  ofBytes : Block 4 → F
  ofBytes_toBytes : ∀ x, ofBytes (toBytes x) = x

section
variable {F : Type} [Arith F]

abbrev WeightMap (F : Type) := AList (fun _ : String => List F)
abbrev SizeMap := AList (fun _ : String => ℤ)

local instance arithZero : Zero F := ⟨Arith.ofInt 0⟩

def isPositive (x : F) : Bool := Arith.lt 0 x

/-- `std::max` keeps its first argument unless the second is larger. -/
def larger (x y : F) : F := if Arith.lt x y then y else x

def sum (values : List F) : F := values.foldl (· + ·) 0

def clipWeights (weights : List F) (clipNorm : F) : List F :=
  let l2 := Arith.sqrt (sum (weights.map (fun w => w * w)))
  if isPositive clipNorm && Arith.lt clipNorm l2 then
    weights.map (fun value => value * (clipNorm / l2))
  else weights

theorem clipWeights_length (weights : List F) (clipNorm : F) :
    (clipWeights weights clipNorm).length = weights.length := by
  unfold clipWeights
  simp only
  split
  · rw [List.length_map]
  · rfl

/-- `sigma` in `ApplyDifferentialPrivacy`, the standard deviation of the noise. -/
def noiseSigma (log : F → F) (clipNorm epsilon delta : F) (numClients : ℕ) : F :=
  (clipNorm * Arith.sqrt (Arith.ofInt 2 * log (Arith.ofInt 5 / Arith.ofInt 4 / delta))) /
    (epsilon * Arith.sqrt (Arith.ofInt numClients))

/-- The noise is what the normal distribution around zero with the deviation
`noiseSigma` returns for each position. -/
def applyDifferentialPrivacy (weights : List F) (clipNorm epsilon delta : F) (numClients : ℕ)
    (noise : ℕ → F) : List F :=
  if !isPositive epsilon || !isPositive delta || !Arith.lt delta (Arith.ofInt 1) ||
      numClients == 0 then weights
  else clipWeights (weights.mapIdx (fun i value => value + noise i)) clipNorm

/-- The reason of a failed validation, empty when the weights are accepted. -/
def validateWeights (weights : WeightMap F) : String :=
  match weights.entries with
  | [] => "No weights submitted"
  | first::rest =>
    let expectedSize := first.2.length
    if expectedSize = 0 then "Empty weight tensor"
    else match (first::rest).find? (fun entry =>
        entry.2.length != expectedSize || !entry.2.all Arith.isFinite) with
      | none => ""
      | some entry =>
        if entry.2.length ≠ expectedSize then "Mismatched tensor dimensions"
        else "Non-finite tensor value from client " ++ entry.1

def dimension (weights : WeightMap F) : ℕ :=
  match weights.entries with
  | [] => 0
  | first::_ => first.2.length

/-- The sum as an `int`, `none` where it overflows. -/
def totalSamples (datasetSizes : SizeMap) : Option ℤ :=
  datasetSizes.entries.foldlM (fun total entry =>
    if total + max 1 entry.2 < 2^31 then some (total + max 1 entry.2) else none) 0

/-- The language leaves undefined what comes of an overflow: then every position
has what `overflow` gives for it. -/
def aggFedAvg (overflow : ℕ → F) (weights : WeightMap F) (datasetSizes : SizeMap) : List F :=
  match totalSamples datasetSizes with
  | none => (List.range (dimension weights)).map overflow
  | some total => weights.entries.foldl (fun result entry =>
      let clientSamples := max 1 ((datasetSizes.lookup entry.1).getD 1)
      let factor : F := if total > 0 then Arith.ofInt clientSamples / Arith.ofInt total
        else Arith.ofInt 1 / Arith.ofInt weights.entries.length
      List.zipWith (fun r value => r + value * factor) result entry.2)
    (List.replicate (dimension weights) 0)

def squaredDistance (u v : List F) : F :=
  sum (List.zipWith (fun x y => (x - y) * (x - y)) u v)

def sortFloats (values : List F) : List F :=
  values.insertionSort (fun x y => Arith.lt y x = false)

/-- The distances from the vector at one position to all of them. -/
def distanceRow (vectors : List (List F)) (i : ℕ) : List F :=
  vectors.mapIdx (fun j v =>
    match vectors[i]? with
    | none => 0
    | some u => if i < j then squaredDistance u v else if j < i then squaredDistance v u else 0)

def krumScore (vectors : List (List F)) (k i : ℕ) : F :=
  sum (((sortFloats (distanceRow vectors i)).drop 1).take (min k (vectors.length - 1)))

/-- The position of the first best score, zero if no score is below the
largest float. -/
def krumBest (vectors : List (List F)) (k : ℕ) : ℕ :=
  ((List.range vectors.length).foldl (fun (best : ℕ × F) i =>
    let score := krumScore vectors k i
    if Arith.lt score best.2 then (i, score) else best) (0, Arith.maxValue)).1

def aggKrum (weights : WeightMap F) : List F :=
  let n := weights.entries.length
  if n < 3 then
    -- the ones of so few clients do not overflow
    aggFedAvg (fun _ => Arith.ofInt 0) weights
      (weights.entries.foldl (fun sizes entry => sizes.insert entry.1 1) ∅)
  else
    let vectors := weights.entries.map (·.2)
    let f := (n - 3) / 2
    let k := if f + 2 < n then n - f - 2 else 1
    (vectors[krumBest vectors k]?).getD []

def aggTrimmedMean (weights : WeightMap F) (beta : F) : List F :=
  let vectors := weights.entries.map (·.2)
  let n := vectors.length
  let trimCount := Arith.floorSize (larger 0 beta * Arith.ofInt n)
  let stop := if trimCount < n then n - trimCount else n
  let (start, stop) := if trimCount < stop then (trimCount, stop) else (0, n)
  (List.range (dimension weights)).map (fun d =>
    let axisValues := sortFloats (vectors.map (fun v => (v[d]?).getD 0))
    sum ((axisValues.drop start).take (stop - start)) / Arith.ofInt (stop - start : ℕ))

def aggregate (overflow : ℕ → F) (strategy : String) (trimmedBeta : F) (weights : WeightMap F)
    (datasetSizes : SizeMap) : List F :=
  if strategy = "krum" then aggKrum weights
  else if strategy = "trimmed_mean" then aggTrimmedMean weights trimmedBeta
  else aggFedAvg overflow weights datasetSizes

/-- One step of server momentum from the latest weights: the new velocity and
the smoothed result. -/
def applyMomentum (serverMomentum : F) (velocity latest result : List F) : List F × List F :=
  let velocity := if velocity.length = result.length then velocity
    else List.replicate result.length 0
  let velocity := List.zipWith (fun v delta => serverMomentum * v + delta) velocity
    (List.zipWith (· - ·) result latest)
  (velocity, List.zipWith (· + ·) latest velocity)

omit [Arith F] in
theorem dimension_eq {weights : WeightMap F} {n : ℕ} (hne : weights.entries ≠ [])
    (h : ∀ entry ∈ weights.entries, entry.2.length = n) : dimension weights = n := by
  obtain ⟨first, rest, hentries⟩ := List.exists_cons_of_ne_nil hne
  unfold dimension
  rw [hentries]
  exact h first (hentries ▸ List.mem_cons_self)

theorem aggFedAvg_length {weights : WeightMap F} {n : ℕ} (hne : weights.entries ≠ [])
    (h : ∀ entry ∈ weights.entries, entry.2.length = n) (overflow : ℕ → F) (sizes : SizeMap) :
    (aggFedAvg overflow weights sizes).length = n := by
  have hdimension := dimension_eq hne h
  have hfold : ∀ (entries : List ((_ : String) × List F)) (result : List F)
      (f : ((_ : String) × List F) → F → F → F), result.length = n →
      (∀ entry ∈ entries, entry.2.length = n) →
      (entries.foldl (fun r entry => List.zipWith (f entry) r entry.2) result).length = n := by
    intro entries
    induction entries with
    | nil => exact fun _ _ hresult _ => hresult
    | cons entry entries ih =>
      intro result f hresult hall
      rw [List.foldl_cons]
      apply ih _ f _ (fun x hx => hall x (List.mem_cons_of_mem _ hx))
      have hentry := hall entry List.mem_cons_self
      rw [List.length_zipWith]
      omega
  unfold aggFedAvg
  split
  · rw [List.length_map, List.length_range, hdimension]
  · exact hfold _ _ _ (by rw [List.length_replicate, hdimension]) h

theorem krumBest_lt {vectors : List (List F)} (hne : vectors ≠ []) (k : ℕ) :
    krumBest vectors k < vectors.length := by
  have hpos := List.length_pos_of_ne_nil hne
  have hfold : ∀ (positions : List ℕ) (best : ℕ × F), best.1 < vectors.length →
      (∀ i ∈ positions, i < vectors.length) →
      (positions.foldl (fun (best : ℕ × F) i =>
        let score := krumScore vectors k i
        if Arith.lt score best.2 then (i, score) else best) best).1 < vectors.length := by
    intro positions
    induction positions with
    | nil => exact fun _ hbest _ => hbest
    | cons i positions ih =>
      intro best hbest hall
      rw [List.foldl_cons]
      apply ih _ _ (fun j hj => hall j (List.mem_cons_of_mem _ hj))
      simp only
      split
      · exact hall i List.mem_cons_self
      · exact hbest
  exact hfold _ _ hpos (fun i hi => List.mem_range.mp hi)

theorem aggKrum_length {weights : WeightMap F} {n : ℕ} (hne : weights.entries ≠ [])
    (h : ∀ entry ∈ weights.entries, entry.2.length = n) : (aggKrum weights).length = n := by
  unfold aggKrum
  simp only
  split
  · exact aggFedAvg_length hne h _ _
  · have hvectors : weights.entries.map (·.2) ≠ [] := fun hnil => hne (List.map_eq_nil_iff.mp hnil)
    generalize hk : (if (weights.entries.length - 3) / 2 + 2 < weights.entries.length then
      weights.entries.length - (weights.entries.length - 3) / 2 - 2 else 1) = k
    have hbest := krumBest_lt hvectors k
    rw [List.getElem?_eq_getElem hbest, Option.getD_some]
    obtain ⟨entry, hentry, heq⟩ := List.mem_map.mp (List.getElem_mem hbest)
    rw [← heq]
    exact h entry hentry

theorem aggregate_length {weights : WeightMap F} {n : ℕ} (hne : weights.entries ≠ [])
    (h : ∀ entry ∈ weights.entries, entry.2.length = n) (overflow : ℕ → F) (strategy : String)
    (trimmedBeta : F) (sizes : SizeMap) :
    (aggregate overflow strategy trimmedBeta weights sizes).length = n := by
  unfold aggregate
  split
  · exact aggKrum_length hne h
  split
  · unfold aggTrimmedMean
    rw [List.length_map, List.length_range]
    exact dimension_eq hne h
  · exact aggFedAvg_length hne h overflow sizes

end

variable {F : Type} [FloatArith F]

/-- `memcpy` from a vector of floats. -/
def floatBytes (weights : List F) : Bytes := weights.flatMap (fun w => (FloatArith.toBytes w).1)

/-- `memcpy` into a vector of floats; the number of bytes is checked before. -/
def bytesFloats : Bytes → List F
  | a::b::c::d::rest => FloatArith.ofBytes ⟨[a, b, c, d], rfl⟩ :: bytesFloats rest
  | _ => []

theorem floatBytes_length (weights : List F) : (floatBytes weights).length = 4 * weights.length := by
  induction weights with
  | nil => rfl
  | cons w ws ih =>
    have hw := (FloatArith.toBytes w).2
    simp only [floatBytes, List.flatMap_cons, List.length_append, hw, List.length_cons] at ih ⊢
    omega

theorem bytesFloats_floatBytes (weights : List F) : bytesFloats (floatBytes weights) = weights := by
  induction weights with
  | nil => rfl
  | cons w ws ih =>
    have hw := FloatArith.ofBytes_toBytes w
    generalize hb : FloatArith.toBytes w = block at hw
    obtain ⟨bytes, hlen⟩ := block
    match bytes, hlen with
    | [a, b, c, d], _ =>
      have hcons : floatBytes (w::ws) = a::b::c::d::floatBytes ws := by simp [floatBytes, hb]
      rw [hcons, bytesFloats, hw, ih]

end PqFl.Aggregation
