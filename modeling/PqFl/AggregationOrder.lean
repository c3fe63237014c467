import PqFl.TrimmedMeans

/-!
# The order of the entries

An `unordered_map` may visit its entries in any order. Sums and sorted values
do not depend on it, so neither do federated averaging and the trimmed mean.
Krum returns the first entry of several with the same score, so it does.
-/

set_option autoImplicit false

namespace PqFl.AggregationOrder
open PqFl.Aggregation PqFl.ExactArithmetic PqFl.SortedSums PqFl.KrumResilience
open PqFl.SampleWeights (sizesOf)

noncomputable section

/-- The same vectors and dataset sizes, visited in other orders. -/
structure Reordered (weights weights' : WeightMap ℝ) (sizes sizes' : SizeMap) : Prop where
  weights : weights'.entries.Perm weights.entries
  sizes : sizes'.entries.Perm sizes.entries

theorem dimension_perm {weights weights' : WeightMap ℝ} {dim : ℕ}
    (h : weights'.entries.Perm weights.entries)
    (hdim : ∀ e ∈ weights.entries, e.2.length = dim) :
    dimension weights' = dimension weights := by
  by_cases hne : weights.entries = []
  · have hnil : weights'.entries = [] := List.Perm.eq_nil (hne ▸ h)
    unfold dimension
    rw [hne, hnil]
  · have hne' : weights'.entries ≠ [] := by
      intro hnil
      rw [hnil] at h
      exact hne h.symm.eq_nil
    rw [dimension_eq hne hdim]
    exact dimension_eq hne' (fun e he => hdim e (h.mem_iff.mp he))

theorem add_size_comm (total x y : ℤ) :
    ((if total + max 1 x < 2^31 then some (total + max 1 x) else none).bind (fun t =>
        if t + max 1 y < 2^31 then some (t + max 1 y) else none)) =
      (if total + max 1 y < 2^31 then some (total + max 1 y) else none).bind (fun t =>
        if t + max 1 x < 2^31 then some (t + max 1 x) else none) := by
  by_cases hx : total + max 1 x < 2^31
  · by_cases hy : total + max 1 y < 2^31
    · rw [if_pos hx, if_pos hy, Option.bind_some, Option.bind_some, add_right_comm]
    · rw [if_pos hx, if_neg hy, Option.bind_some, if_neg (by omega), Option.bind_none]
  · by_cases hy : total + max 1 y < 2^31
    · rw [if_neg hx, if_pos hy, Option.bind_some, if_neg (by omega), Option.bind_none]
    · rw [if_neg hx, if_neg hy, Option.bind_none, Option.bind_none]

theorem totalSamples_perm {sizes sizes' : SizeMap} (h : sizes'.entries.Perm sizes.entries) :
    totalSamples sizes' = totalSamples sizes := by
  unfold totalSamples
  rw [List.foldlM_eq_foldl, List.foldlM_eq_foldl]
  apply h.foldl_eq'
  intro x _ y _ previous
  cases previous with
  | none => rfl
  | some total => exact add_size_comm total x.2 y.2

theorem add_scaled_comm (result u v : List ℝ) (a b : ℝ) :
    List.zipWith (fun r value => r + value * b)
        (List.zipWith (fun r value => r + value * a) result u) v =
      List.zipWith (fun r value => r + value * a)
        (List.zipWith (fun r value => r + value * b) result v) u := by
  apply List.ext_getElem
  · simp only [List.length_zipWith]
    omega
  · intro i hi hi'
    simp only [List.getElem_zipWith]
    ring

theorem aggFedAvg_perm {weights weights' : WeightMap ℝ} {sizes sizes' : SizeMap} {dim : ℕ}
    (h : Reordered weights weights' sizes sizes')
    (hdim : ∀ e ∈ weights.entries, e.2.length = dim) {overflow overflow' : ℕ → ℝ}
    (hsame : totalSamples sizes ≠ none ∨ overflow' = overflow) :
    aggFedAvg overflow' weights' sizes' = aggFedAvg overflow weights sizes := by
  unfold aggFedAvg
  rw [totalSamples_perm h.sizes, dimension_perm h.weights hdim, h.weights.length_eq]
  have hlookup : ∀ client, sizes'.lookup client = sizes.lookup client :=
    fun client => AList.perm_lookup h.sizes
  cases htotal : totalSamples sizes with
  | none =>
    rcases hsame with hfits | hsame
    · exact absurd htotal hfits
    · simp only [hsame]
  | some total =>
    simp only [hlookup]
    apply h.weights.foldl_eq'
    intro x _ y _ result
    exact add_scaled_comm _ _ _ _ _

theorem sortFloats_eq {values sorted : List ℝ} (h : values.Perm sorted)
    (hsorted : sorted.Pairwise (· ≤ ·)) : sortFloats values = sorted :=
  ((sortFloats_perm values).trans h).eq_of_pairwise' (sortFloats_sorted values) hsorted

theorem sortFloats_of_perm {values values' : List ℝ} (h : values'.Perm values) :
    sortFloats values' = sortFloats values :=
  sortFloats_eq (h.trans (sortFloats_perm values).symm) (sortFloats_sorted values)

theorem aggTrimmedMean_perm {weights weights' : WeightMap ℝ} {dim : ℕ} (β : ℝ)
    (h : weights'.entries.Perm weights.entries)
    (hdim : ∀ e ∈ weights.entries, e.2.length = dim) :
    aggTrimmedMean weights' β = aggTrimmedMean weights β := by
  have hvectors : (weights'.entries.map (·.2)).Perm (weights.entries.map (·.2)) := h.map _
  have haxis : ∀ f : List ℝ → ℝ, sortFloats ((weights'.entries.map (·.2)).map f) =
      sortFloats ((weights.entries.map (·.2)).map f) :=
    fun f => sortFloats_of_perm (hvectors.map f)
  unfold aggTrimmedMean
  simp only [hvectors.length_eq, dimension_perm h hdim, haxis]

theorem foldl_insert_sizes (l : List ((_ : String) × List ℝ)) {sizes sizes' : SizeMap}
    (h : sizes'.entries.Perm sizes.entries) :
    (l.foldl (fun sizes entry => sizes.insert entry.1 1) sizes').entries.Perm
      (l.foldl (fun sizes entry => sizes.insert entry.1 1) sizes).entries := by
  induction l generalizing sizes sizes' with
  | nil => exact h
  | cons e l ih => exact ih (AList.perm_insert h)

theorem foldl_insert_perm {l l' : List ((_ : String) × List ℝ)} (h : l'.Perm l) (sizes : SizeMap) :
    (l'.foldl (fun sizes entry => sizes.insert entry.1 1) sizes).entries.Perm
      (l.foldl (fun sizes entry => sizes.insert entry.1 1) sizes).entries := by
  induction h generalizing sizes with
  | nil => exact List.Perm.refl _
  | cons e _ ih => exact ih (sizes.insert e.1 1)
  | swap e e' l =>
    have hswap : ((sizes.insert e'.1 1).insert e.1 1).entries.Perm
        ((sizes.insert e.1 1).insert e'.1 1).entries := by
      by_cases heq : e'.1 = e.1
      · rw [heq]
      · exact AList.insert_insert_of_ne sizes heq
    exact foldl_insert_sizes l hswap
  | trans _ _ ih ih' => exact (ih sizes).trans (ih' sizes)

theorem aggKrum_few {weights weights' : WeightMap ℝ} {dim : ℕ}
    (h : weights'.entries.Perm weights.entries)
    (hdim : ∀ e ∈ weights.entries, e.2.length = dim) (hfew : weights.entries.length < 3) :
    aggKrum weights' = aggKrum weights := by
  have hfew' : weights'.entries.length < 3 := h.length_eq ▸ hfew
  unfold aggKrum
  simp only
  rw [if_pos hfew, if_pos hfew']
  exact aggFedAvg_perm ⟨h, foldl_insert_perm h ∅⟩ hdim (.inr rfl)

/-- The score which is compared: none is above the initial best score. -/
def cappedScore (weights : WeightMap ℝ) (v : List ℝ) : ℝ := min (score weights v) Arith.maxValue

def IsBest (weights : WeightMap ℝ) (v : List ℝ) : Prop :=
  ∀ e ∈ weights.entries, cappedScore weights v ≤ cappedScore weights e.2

theorem score_perm {weights weights' : WeightMap ℝ} (h : weights'.entries.Perm weights.entries)
    (v : List ℝ) : score weights' v = score weights v := by
  unfold score vectorsOf
  rw [h.length_eq, sortFloats_of_perm ((h.map _).map _)]

theorem isBest_perm {weights weights' : WeightMap ℝ} (h : weights'.entries.Perm weights.entries)
    (v : List ℝ) : IsBest weights' v ↔ IsBest weights v := by
  unfold IsBest cappedScore
  simp only [score_perm h, h.mem_iff]

/-- The first of the smallest capped scores of the first `m`. -/
structure FirstBest (score : ℕ → ℝ) (worst : ℝ) (m : ℕ) (best : ℕ × ℝ) : Prop where
  index : best.1 < m
  value : best.2 = min (score best.1) worst
  smallest : ∀ j < m, best.2 ≤ min (score j) worst
  first : ∀ j < best.1, best.2 < min (score j) worst

theorem keepBetter_start (score : ℕ → ℝ) (worst : ℝ) :
    FirstBest score worst 1 (keepBetter score (0, worst) 0) := by
  have hvalue : keepBetter score (0, worst) 0 = (0, min (score 0) worst) := by
    unfold keepBetter
    by_cases hlt : score 0 < worst
    · rw [if_pos hlt, min_eq_left hlt.le]
    · rw [if_neg hlt, min_eq_right (not_lt.mp hlt)]
  rw [hvalue]
  constructor
  · exact Nat.zero_lt_one
  · rfl
  · intro j hj
    obtain rfl : j = 0 := by omega
    exact le_rfl
  · intro j hj
    exact absurd hj (Nat.not_lt_zero j)

theorem keepBetter_step {score : ℕ → ℝ} {worst : ℝ} {m : ℕ} {best : ℕ × ℝ}
    (h : FirstBest score worst m best) :
    FirstBest score worst (m + 1) (keepBetter score best m) := by
  have hworst : best.2 ≤ worst := h.value ▸ min_le_right _ _
  unfold keepBetter
  by_cases hlt : score m < best.2
  · rw [if_pos hlt]
    have hmin : min (score m) worst = score m := min_eq_left (hlt.le.trans hworst)
    constructor
    · exact Nat.lt_succ_self m
    · exact hmin.symm
    · intro j hj
      by_cases hjm : j = m
      · rw [hjm, hmin]
      · exact hlt.le.trans (h.smallest j (by omega))
    · intro j hj
      exact hlt.trans_le (h.smallest j hj)
  · rw [if_neg hlt]
    constructor
    · exact h.index.trans (Nat.lt_succ_self m)
    · exact h.value
    · intro j hj
      by_cases hjm : j = m
      · rw [hjm]
        exact le_min (not_lt.mp hlt) hworst
      · exact h.smallest j (by omega)
    · exact h.first

theorem foldl_keepBetter_first (score : ℕ → ℝ) (worst : ℝ) (m : ℕ) :
    FirstBest score worst (m + 1)
      ((List.range (m + 1)).foldl (keepBetter score) (0, worst)) := by
  induction m with
  | zero => exact keepBetter_start score worst
  | succ m ih =>
    rw [List.range_succ, List.foldl_append]
    exact keepBetter_step ih

theorem aggKrum_first {weights : WeightMap ℝ} (hn : 3 ≤ weights.entries.length) :
    ∃ before a after, weights.entries = before ++ a :: after ∧ aggKrum weights = a.2 ∧
      IsBest weights a.2 ∧ ∀ e ∈ before, ¬ IsBest weights e.2 := by
  obtain ⟨m, hm⟩ : ∃ m, weights.entries.length = m + 1 := ⟨weights.entries.length - 1, by omega⟩
  have hlength : (vectorsOf weights).length = m + 1 := by
    rw [vectorsOf, List.length_map, hm]
  have hfirst := foldl_keepBetter_first
    (krumScore (vectorsOf weights) (neighbours weights.entries.length)) Arith.maxValue m
  have hbest := krumBest_exact (vectorsOf weights) (neighbours weights.entries.length)
  rw [hlength] at hbest
  have hkrum := aggKrum_at hn
  rw [hbest] at hkrum
  generalize hresult : (List.range (m + 1)).foldl (keepBetter (krumScore (vectorsOf weights)
    (neighbours weights.entries.length))) (0, Arith.maxValue) = best at hfirst hkrum
  obtain ⟨i, value⟩ := best
  have hi : i < weights.entries.length := hm ▸ hfirst.index
  have hcapped : ∀ j (hj : j < weights.entries.length),
      min (krumScore (vectorsOf weights) (neighbours weights.entries.length) j) Arith.maxValue =
        cappedScore weights weights.entries[j].2 := by
    intro j hj
    rw [krumScore_score hn (List.getElem?_eq_getElem hj), cappedScore]
  have hvalue : value = cappedScore weights weights.entries[i].2 := by
    rw [← hcapped i hi]
    exact hfirst.value
  refine ⟨weights.entries.take i, weights.entries[i], weights.entries.drop (i + 1), ?_, ?_, ?_, ?_⟩
  · rw [← List.drop_eq_getElem_cons hi, List.take_append_drop]
  · rw [hkrum, List.getElem?_eq_getElem hi]
    rfl
  · intro e he
    obtain ⟨j, hj, rfl⟩ := List.mem_iff_getElem.mp he
    rw [← hvalue, ← hcapped j hj]
    exact hfirst.smallest j (by omega)
  · intro e he hbest'
    obtain ⟨j, hj, rfl⟩ := List.mem_iff_getElem.mp he
    rw [List.length_take] at hj
    rw [List.getElem_take] at hbest'
    have hlt := hfirst.first j (by omega)
    rw [hcapped j (by omega)] at hlt
    have hle := hbest' _ (List.getElem_mem hi)
    rw [← hvalue] at hle
    exact absurd hle (not_le.mpr hlt)

theorem aggKrum_head {weights : WeightMap ℝ} (hn : 3 ≤ weights.entries.length)
    {a : (_ : String) × List ℝ} {rest : List ((_ : String) × List ℝ)}
    (hentries : weights.entries = a :: rest) (hbest : IsBest weights a.2) :
    aggKrum weights = a.2 := by
  obtain ⟨before, b, after, hsplit, hkrum, -, hnone⟩ := aggKrum_first hn
  cases before with
  | nil =>
    rw [hentries, List.nil_append] at hsplit
    rw [hkrum, (List.cons.inj hsplit).1]
  | cons e before =>
    rw [hentries, List.cons_append] at hsplit
    have hnot := hnone e List.mem_cons_self
    rw [← (List.cons.inj hsplit).1] at hnot
    exact absurd hbest hnot

theorem exists_order {weights : WeightMap ℝ} {a : (_ : String) × List ℝ}
    (ha : a ∈ weights.entries) :
    ∃ weights' : WeightMap ℝ, weights'.entries.Perm weights.entries ∧
      ∃ rest, weights'.entries = a :: rest := by
  obtain ⟨before, after, hsplit⟩ := List.append_of_mem ha
  have hperm : (a :: (before ++ after)).Perm weights.entries := by
    rw [hsplit]
    exact List.perm_middle.symm
  exact ⟨⟨a :: (before ++ after), (List.perm_nodupKeys hperm).mpr weights.nodupKeys⟩, hperm,
    before ++ after, rfl⟩

def OneBest (weights : WeightMap ℝ) : Prop :=
  weights.entries.length < 3 ∨ ∀ a ∈ weights.entries, ∀ b ∈ weights.entries,
    IsBest weights a.2 → IsBest weights b.2 → a.2 = b.2

theorem aggKrum_of_oneBest {weights weights' : WeightMap ℝ} {dim : ℕ}
    (h : weights'.entries.Perm weights.entries)
    (hdim : ∀ e ∈ weights.entries, e.2.length = dim) (hone : OneBest weights) :
    aggKrum weights' = aggKrum weights := by
  rcases hone with hfew | hone
  · exact aggKrum_few h hdim hfew
  by_cases hfew : weights.entries.length < 3
  · exact aggKrum_few h hdim hfew
  have hn : 3 ≤ weights.entries.length := by omega
  have hn' : 3 ≤ weights'.entries.length := by
    rw [h.length_eq]
    exact hn
  obtain ⟨before, a, after, hsplit, hkrum, hbest, -⟩ := aggKrum_first hn
  obtain ⟨before', a', after', hsplit', hkrum', hbest', -⟩ := aggKrum_first hn'
  have ha : a ∈ weights.entries := by
    rw [hsplit]
    exact List.mem_append_right before List.mem_cons_self
  have ha' : a' ∈ weights'.entries := by
    rw [hsplit']
    exact List.mem_append_right before' List.mem_cons_self
  rw [hkrum, hkrum']
  exact hone a' (h.mem_iff.mp ha') a ha ((isBest_perm h a'.2).mp hbest') hbest

theorem oneBest_of_orders {weights : WeightMap ℝ}
    (h : ∀ weights' : WeightMap ℝ, weights'.entries.Perm weights.entries →
      aggKrum weights' = aggKrum weights) : OneBest weights := by
  by_cases hfew : weights.entries.length < 3
  · exact .inl hfew
  right
  have hfirst : ∀ a ∈ weights.entries, IsBest weights a.2 → aggKrum weights = a.2 := by
    intro a ha hbest
    obtain ⟨weights', hperm, rest, hentries⟩ := exists_order ha
    have hn' : 3 ≤ weights'.entries.length := by
      rw [hperm.length_eq]
      omega
    rw [← h weights' hperm]
    exact aggKrum_head hn' hentries ((isBest_perm hperm a.2).mpr hbest)
  intro a ha b hb hbesta hbestb
  rw [← hfirst a ha hbesta, hfirst b hb hbestb]

theorem aggregate_krum (overflow : ℕ → ℝ) (β : ℝ) (weights : WeightMap ℝ) (sizes : SizeMap) :
    aggregate overflow "krum" β weights sizes = aggKrum weights := if_pos rfl

theorem aggregate_averages {weights weights' : WeightMap ℝ} {sizes sizes' : SizeMap} {dim : ℕ}
    (h : Reordered weights weights' sizes sizes')
    (hdim : ∀ e ∈ weights.entries, e.2.length = dim) {strategy : String}
    (hstrategy : strategy ≠ "krum") {overflow overflow' : ℕ → ℝ}
    (hsame : strategy = "trimmed_mean" ∨ totalSamples sizes ≠ none ∨ overflow' = overflow)
    (β : ℝ) :
    aggregate overflow' strategy β weights' sizes' = aggregate overflow strategy β weights sizes := by
  unfold aggregate
  rw [if_neg hstrategy, if_neg hstrategy]
  by_cases htrimmed : strategy = "trimmed_mean"
  · rw [if_pos htrimmed, if_pos htrimmed]
    exact aggTrimmedMean_perm β h.weights hdim
  · rw [if_neg htrimmed, if_neg htrimmed]
    exact aggFedAvg_perm h hdim (hsame.resolve_left htrimmed)

/-- Trimmed means are the same in every order, and averages are while the sizes do
not overflow, or what comes of it is the same. Krum returns the first of the vectors
with the smallest score, so its result is the same in every order iff these are all
one vector. -/
theorem aggregate_order {weights : WeightMap ℝ} {dim : ℕ}
    (hdim : ∀ e ∈ weights.entries, e.2.length = dim) (sizes : SizeMap) (β : ℝ)
    (overflow overflow' : ℕ → ℝ) :
    (∀ strategy ≠ "krum", ∀ weights' sizes', Reordered weights weights' sizes sizes' →
      strategy = "trimmed_mean" ∨ totalSamples sizes ≠ none ∨ overflow' = overflow →
      aggregate overflow' strategy β weights' sizes' =
        aggregate overflow strategy β weights sizes) ∧
    (3 ≤ weights.entries.length → ∃ before a after, weights.entries = before ++ a :: after ∧
      aggregate overflow "krum" β weights sizes = a.2 ∧ IsBest weights a.2 ∧
      ∀ e ∈ before, ¬ IsBest weights e.2) ∧
    ((∀ weights' sizes', Reordered weights weights' sizes sizes' →
      aggregate overflow' "krum" β weights' sizes' = aggregate overflow "krum" β weights sizes) ↔
      OneBest weights) := by
  simp only [aggregate_krum]
  refine ⟨?_, ?_, ?_, ?_⟩
  · intro strategy hstrategy weights' sizes' h hsame
    exact aggregate_averages h hdim hstrategy hsame β
  · exact aggKrum_first
  · intro hall
    exact oneBest_of_orders (fun weights' hperm => hall weights' sizes ⟨hperm, List.Perm.refl _⟩)
  · intro hone weights' sizes' h
    exact aggKrum_of_oneBest h.weights hdim hone

/-- Two clients are nearest to each other. -/
def nearestPair : WeightMap ℝ :=
  ⟨[⟨"a", [0]⟩, ⟨"b", [1]⟩, ⟨"c", [3]⟩], by simp [List.NodupKeys, List.keys]⟩

def nearestPairSwapped : WeightMap ℝ :=
  ⟨[⟨"b", [1]⟩, ⟨"a", [0]⟩, ⟨"c", [3]⟩], by simp [List.NodupKeys, List.keys]⟩

theorem nearestPair_swapped : nearestPairSwapped.entries.Perm nearestPair.entries :=
  List.Perm.swap _ _ _

theorem aggregate_order_nearestPair :
    Reordered nearestPair nearestPairSwapped (sizesOf 1 1 1) (sizesOf 1 1 1) ∧
    ∀ overflow overflow', aggregate overflow' "fedavg" (1 / 3) nearestPairSwapped (sizesOf 1 1 1) =
      aggregate overflow "fedavg" (1 / 3) nearestPair (sizesOf 1 1 1) ∧
    aggregate overflow' "trimmed_mean" (1 / 3) nearestPairSwapped (sizesOf 1 1 1) =
      aggregate overflow "trimmed_mean" (1 / 3) nearestPair (sizesOf 1 1 1) := by
  have hdim : ∀ e ∈ nearestPair.entries, e.2.length = 1 := by
    intro e he
    simp only [nearestPair, List.mem_cons, List.not_mem_nil, or_false] at he
    rcases he with rfl | rfl | rfl <;> rfl
  have hswapped : Reordered nearestPair nearestPairSwapped (sizesOf 1 1 1) (sizesOf 1 1 1) :=
    ⟨nearestPair_swapped, List.Perm.refl _⟩
  refine ⟨hswapped, ?_⟩
  intro overflow overflow'
  have horder := (aggregate_order hdim (sizesOf 1 1 1) (1 / 3) overflow overflow').1
  constructor
  · exact horder "fedavg" (by decide) _ _ hswapped (.inr (.inl (by decide)))
  · exact horder "trimmed_mean" (by decide) _ _ hswapped (.inl rfl)

theorem score_of_row {u : List ℝ} {x y z : ℝ}
    (hrow : ((vectorsOf nearestPair).map (squaredDistance u)).Perm [x, y, z])
    (hsorted : x ≤ y ∧ y ≤ z) : score nearestPair u = y := by
  have hsort : [x, y, z].Pairwise (· ≤ ·) := by
    simp [hsorted.1, hsorted.2, hsorted.1.trans hsorted.2]
  rw [score, sortFloats_eq hrow hsort]
  show [y].sum = y
  simp

theorem nearestPair_rows (u : ℝ) : (vectorsOf nearestPair).map (squaredDistance [u]) =
    [u ^ 2, (u - 1) ^ 2, (u - 3) ^ 2] := by
  simp [vectorsOf, nearestPair, squaredDistance_exact]

theorem nearestPair_scores : score nearestPair [0] = 1 ∧ score nearestPair [1] = 1 ∧
    score nearestPair [3] = 4 := by
  refine ⟨score_of_row (x := 0) (z := 9) ?_ (by norm_num),
    score_of_row (x := 0) (z := 4) ?_ (by norm_num),
    score_of_row (x := 0) (z := 9) ?_ (by norm_num)⟩
  · rw [nearestPair_rows]
    norm_num
  · rw [nearestPair_rows]
    norm_num
    exact List.Perm.swap _ _ _
  · rw [nearestPair_rows]
    norm_num
    exact (List.reverse_perm _).symm

theorem nearestPair_best : IsBest nearestPair [0] ∧ IsBest nearestPair [1] := by
  obtain ⟨ha, hb, hc⟩ := nearestPair_scores
  have hall : ∀ e ∈ nearestPair.entries, 1 ≤ score nearestPair e.2 := by
    intro e he
    simp only [nearestPair, List.mem_cons, List.not_mem_nil, or_false] at he
    rcases he with rfl | rfl | rfl
    · exact ha.ge
    · exact hb.ge
    · rw [hc]
      norm_num
  constructor
  · intro e he
    exact min_le_min_right _ (ha.le.trans (hall e he))
  · intro e he
    exact min_le_min_right _ (hb.le.trans (hall e he))

/-- The two orders of one mapping have two results. -/
theorem krum_differs_nearestPair :
    Reordered nearestPair nearestPairSwapped (sizesOf 1 1 1) (sizesOf 1 1 1) ∧ ∀ overflow,
    aggregate overflow "krum" 0 nearestPair (sizesOf 1 1 1) = [0] ∧
    aggregate overflow "krum" 0 nearestPairSwapped (sizesOf 1 1 1) = [1] ∧
    aggregate overflow "krum" 0 nearestPair (sizesOf 1 1 1) ≠
      aggregate overflow "krum" 0 nearestPairSwapped (sizesOf 1 1 1) := by
  have hfirst : aggKrum nearestPair = [0] :=
    aggKrum_head (show 3 ≤ nearestPair.entries.length by decide) rfl nearestPair_best.1
  have hsecond : aggKrum nearestPairSwapped = [1] :=
    aggKrum_head (show 3 ≤ nearestPairSwapped.entries.length by decide) rfl
      ((isBest_perm nearestPair_swapped [1]).mpr nearestPair_best.2)
  refine ⟨⟨nearestPair_swapped, List.Perm.refl _⟩, ?_⟩
  intro overflow
  simp only [aggregate_krum, hfirst, hsecond]
  norm_num

end

end PqFl.AggregationOrder
