import PqFl.ExactArithmetic

/-!
# Krum withstands arbitrary vectors

With `n` vectors of which at most `(n-3)/2` are arbitrary, every other vector
has enough close neighbours for a small score. The selected vector has a score
at most as large, so its nearest neighbours cannot all be arbitrary ones.
-/

set_option autoImplicit false

namespace PqFl.KrumResilience
open PqFl.Aggregation PqFl.ExactArithmetic PqFl.SortedSums

noncomputable section

def tolerated (n : ℕ) : ℕ := (n - 3) / 2

def neighbours (n : ℕ) : ℕ := n - tolerated n - 2

def vectorsOf (weights : WeightMap ℝ) : List (List ℝ) := weights.entries.map (·.2)

theorem countP_clients (weights : WeightMap ℝ) (B : Finset String) :
    weights.entries.countP (fun e => e.1 ∈ B) ≤ B.card := by
  have hnodup : (weights.entries.map (·.1)).Nodup := weights.nodupKeys
  have hsub : ((weights.entries.filter (fun e => e.1 ∈ B)).map (·.1)).Nodup :=
    hnodup.sublist (List.filter_sublist.map _)
  have hcard := Finset.card_le_card (s := ((weights.entries.filter
    (fun e => e.1 ∈ B)).map (·.1)).toFinset) (t := B) (by
      intro x hx
      obtain ⟨e, he, rfl⟩ := List.mem_map.mp (List.mem_toFinset.mp hx)
      simpa using (List.mem_filter.mp he).2)
  rw [List.toFinset_card_of_nodup hsub, List.length_map] at hcard
  rw [List.countP_eq_length_filter]
  exact hcard

theorem countP_others (weights : WeightMap ℝ) (B : Finset String) :
    weights.entries.length ≤ weights.entries.countP (fun e => e.1 ∉ B) + B.card := by
  have hsplit := List.length_eq_countP_add_countP (fun e : (_ : String) × List ℝ =>
    decide (e.1 ∈ B)) (l := weights.entries)
  have hle := countP_clients weights B
  simp only [decide_eq_true_eq] at hsplit
  omega

def score (weights : WeightMap ℝ) (u : List ℝ) : ℝ :=
  sumAfterFirst (sortFloats ((vectorsOf weights).map (squaredDistance u)))
    (neighbours weights.entries.length)

theorem countP_row (weights : WeightMap ℝ) (u : List ℝ) (bound : ℝ) :
    (sortFloats ((vectorsOf weights).map (squaredDistance u))).countP (· ≤ bound) =
      weights.entries.countP (fun e => squaredDistance u e.2 ≤ bound) := by
  rw [(sortFloats_perm _).countP_eq, vectorsOf, List.map_map, List.countP_map]
  rfl

theorem neighbours_bounds {n : ℕ} (h : 3 ≤ n) :
    1 ≤ neighbours n ∧ neighbours n < n ∧ tolerated n ≤ neighbours n ∧
      neighbours n + 1 + (tolerated n + 1) ≤ n := by
  unfold neighbours tolerated
  omega

theorem score_le {weights : WeightMap ℝ} (hn : 3 ≤ weights.entries.length) {B : Finset String}
    (hB : B.card ≤ tolerated weights.entries.length) {D : ℝ}
    {a : (_ : String) × List ℝ} (hD : ∀ b ∈ weights.entries, b.1 ∉ B → a.1 ≠ b.1 →
      squaredDistance a.2 b.2 ≤ D) :
    score weights a.2 ≤ neighbours weights.entries.length * D := by
  apply sumAfterFirst_le (sortFloats_sorted _)
  rw [countP_row]
  -- the neighbours are sought among the clients which are neither in `B` nor `a`
  have hothers := countP_others weights (insert a.1 B)
  have hcard := Finset.card_insert_le a.1 B
  have hmono : weights.entries.countP (fun e => e.1 ∉ insert a.1 B) ≤
      weights.entries.countP (fun e => squaredDistance a.2 e.2 ≤ D) := by
    apply List.countP_mono_left
    intro e he hout
    simp only [Finset.mem_insert, not_or, decide_eq_true_eq] at hout ⊢
    exact hD e he hout.2 (fun h => hout.1 h.symm)
  have hbounds := neighbours_bounds hn
  omega

theorem close_of_score {weights : WeightMap ℝ} (hn : 3 ≤ weights.entries.length)
    {B : Finset String} (hB : B.card ≤ tolerated weights.entries.length) {u : List ℝ} {bound : ℝ}
    (h : score weights u ≤ bound) :
    ∃ e ∈ weights.entries, e.1 ∉ B ∧ squaredDistance u e.2 ≤ bound := by
  by_contra hnone
  push Not at hnone
  obtain ⟨hone, hlength, hle, -⟩ := neighbours_bounds hn
  have hcount : weights.entries.countP (fun e => squaredDistance u e.2 ≤ bound) ≤
      weights.entries.countP (fun e => e.1 ∈ B) := by
    apply List.countP_mono_left
    intro e he hclose
    simp only [decide_eq_true_eq] at hclose ⊢
    by_contra hout
    exact absurd hclose (not_le.mpr (hnone e he hout))
  have hclients := countP_clients weights B
  have hlt : bound < score weights u :=
    lt_sumAfterFirst (sortFloats_sorted ((vectorsOf weights).map (squaredDistance u)))
    (fun x hx => by
      obtain ⟨v, -, rfl⟩ := List.mem_map.mp ((sortFloats_perm _).mem_iff.mp hx)
      exact squaredDistance_nonneg u v) hone
    (by rw [(sortFloats_perm _).length_eq, List.length_map, vectorsOf, List.length_map]
        exact hlength)
    (by rw [countP_row]
        omega)
  exact absurd h (not_le.mpr hlt)

theorem krumScore_score {weights : WeightMap ℝ} (hn : 3 ≤ weights.entries.length) {i : ℕ}
    {e : (_ : String) × List ℝ} (he : weights.entries[i]? = some e) :
    krumScore (vectorsOf weights) (neighbours weights.entries.length) i = score weights e.2 := by
  have hvector : (vectorsOf weights)[i]? = some e.2 := by
    rw [vectorsOf, List.getElem?_map, he]
    rfl
  apply krumScore_exact hvector
  rw [vectorsOf, List.length_map]
  exact (neighbours_bounds hn).2.1

theorem aggKrum_at {weights : WeightMap ℝ} (hn : 3 ≤ weights.entries.length) :
    aggKrum weights = ((weights.entries[krumBest (vectorsOf weights)
      (neighbours weights.entries.length)]?).map (·.2)).getD [] := by
  have hk : (if (weights.entries.length - 3) / 2 + 2 < weights.entries.length then
      weights.entries.length - (weights.entries.length - 3) / 2 - 2 else 1) =
      neighbours weights.entries.length := by
    rw [if_pos (by omega)]
    rfl
  unfold aggKrum
  simp only [hk]
  rw [if_neg (by omega), List.getElem?_map]
  rfl

theorem aggKrum_smallest {weights : WeightMap ℝ} (hn : 3 ≤ weights.entries.length)
    (hscores : ∀ i < weights.entries.length,
      krumScore (vectorsOf weights) (neighbours weights.entries.length) i < Arith.maxValue) :
    ∃ e ∈ weights.entries, aggKrum weights = e.2 ∧
      ∀ a ∈ weights.entries, score weights e.2 ≤ score weights a.2 := by
  have hlength : (vectorsOf weights).length = weights.entries.length := by
    rw [vectorsOf, List.length_map]
  have hkrum := krumBest_exact (vectorsOf weights) (neighbours weights.entries.length)
  rw [hlength] at hkrum
  have hbest := foldl_keepBetter_smallest (by omega) hscores 0
  rw [← hkrum] at hbest
  obtain ⟨i, hi⟩ : ∃ i, krumBest (vectorsOf weights) (neighbours weights.entries.length) = i :=
    ⟨_, rfl⟩
  rw [hi] at hbest
  obtain ⟨hlt, hsmallest⟩ := hbest
  have he : weights.entries[i]? = some weights.entries[i] := List.getElem?_eq_getElem hlt
  refine ⟨weights.entries[i], List.getElem_mem hlt, ?_, ?_⟩
  · rw [aggKrum_at hn, hi, he]
    rfl
  · intro a ha
    obtain ⟨j, hj, rfl⟩ := List.mem_iff_getElem.mp ha
    have hja : weights.entries[j]? = some weights.entries[j] := List.getElem?_eq_getElem hj
    rw [← krumScore_score hn he, ← krumScore_score hn hja]
    exact hsmallest j hj

theorem exists_other {weights : WeightMap ℝ} (hn : 3 ≤ weights.entries.length)
    {B : Finset String} (hB : B.card ≤ tolerated weights.entries.length) :
    ∃ a ∈ weights.entries, a.1 ∉ B := by
  have hothers := countP_others weights B
  have hbounds := neighbours_bounds hn
  have hpos : 0 < weights.entries.countP (fun e => e.1 ∉ B) := by omega
  obtain ⟨a, ha, hout⟩ := List.countP_pos_iff.mp hpos
  exact ⟨a, ha, by simpa using hout⟩

/-- The vector which Krum returns is close to that of a client outside `B`; if
these all have one vector, it is that vector. -/
theorem aggKrum_resilient {weights : WeightMap ℝ} {dimension : ℕ} (hn : 3 ≤ weights.entries.length)
    (hdimension : ∀ e ∈ weights.entries, e.2.length = dimension) {B : Finset String}
    (hB : B.card ≤ tolerated weights.entries.length)
    (hscores : ∀ i < weights.entries.length,
      krumScore (vectorsOf weights) (neighbours weights.entries.length) i < Arith.maxValue) :
    (∀ D, (∀ a ∈ weights.entries, ∀ b ∈ weights.entries, a.1 ∉ B → b.1 ∉ B → a.1 ≠ b.1 →
        squaredDistance a.2 b.2 ≤ D) →
      ∃ e ∈ weights.entries, e.1 ∉ B ∧
        squaredDistance (aggKrum weights) e.2 ≤ neighbours weights.entries.length * D) ∧
    ∀ v, (∀ e ∈ weights.entries, e.1 ∉ B → e.2 = v) → aggKrum weights = v := by
  obtain ⟨s, hs, haggregate, hsmallest⟩ := aggKrum_smallest hn hscores
  have hclose : ∀ D, (∀ a ∈ weights.entries, ∀ b ∈ weights.entries, a.1 ∉ B → b.1 ∉ B →
      a.1 ≠ b.1 → squaredDistance a.2 b.2 ≤ D) → ∃ e ∈ weights.entries, e.1 ∉ B ∧
      squaredDistance s.2 e.2 ≤ neighbours weights.entries.length * D := by
    intro D hD
    obtain ⟨a, ha, hout⟩ := exists_other hn hB
    have hscore := score_le hn hB (fun b hb hb' hne => hD a ha b hb hout hb' hne)
    exact close_of_score hn hB ((hsmallest a ha).trans hscore)
  rw [haggregate]
  refine ⟨hclose, ?_⟩
  intro v hv
  have hzero : ∀ a ∈ weights.entries, ∀ b ∈ weights.entries, a.1 ∉ B → b.1 ∉ B →
      a.1 ≠ b.1 → squaredDistance a.2 b.2 ≤ 0 := by
    intro a ha b hb haout hbout _
    rw [hv a ha haout, hv b hb hbout, squaredDistance_self]
  obtain ⟨e, he, hout, hle⟩ := hclose 0 hzero
  rw [mul_zero] at hle
  have hlength : s.2.length = e.2.length := by
    rw [hdimension s hs, hdimension e he]
  rw [eq_of_squaredDistance hlength hle, hv e he hout]

theorem scores_small {weights : WeightMap ℝ} (hn : 3 ≤ weights.entries.length) {D : ℝ}
    (hclose : ∀ a ∈ weights.entries, ∀ b ∈ weights.entries, squaredDistance a.2 b.2 ≤ D)
    (hsmall : neighbours weights.entries.length * D < Arith.maxValue) :
    ∀ i < weights.entries.length,
      krumScore (vectorsOf weights) (neighbours weights.entries.length) i < Arith.maxValue := by
  intro i hi
  rw [krumScore_score hn (List.getElem?_eq_getElem hi)]
  have hscore : score weights weights.entries[i].2 ≤ neighbours weights.entries.length * D :=
    score_le (B := ∅) hn (Nat.zero_le _) (fun b hb _ _ => hclose _ (List.getElem_mem hi) b hb)
  exact hscore.trans_lt hsmall

/-- Two clients agree and a third one does not. -/
def threeClients : WeightMap ℝ :=
  ⟨[⟨"a", [0]⟩, ⟨"b", [0]⟩, ⟨"c", [1]⟩], by simp [List.NodupKeys, List.keys]⟩

theorem threeClients_dimension : ∀ e ∈ threeClients.entries, e.2.length = 1 := by
  intro e he
  simp only [threeClients, List.mem_cons, List.not_mem_nil, or_false] at he
  rcases he with rfl | rfl | rfl <;> rfl

theorem threeClients_close : ∀ a ∈ threeClients.entries, ∀ b ∈ threeClients.entries,
    squaredDistance a.2 b.2 ≤ 1 := by
  intro a ha b hb
  rw [squaredDistance_exact]
  simp only [threeClients, List.mem_cons, List.not_mem_nil, or_false] at ha hb
  rcases ha with rfl | rfl | rfl <;> rcases hb with rfl | rfl | rfl <;> norm_num

theorem threeClients_scores : ∀ i < threeClients.entries.length,
    krumScore (vectorsOf threeClients) (neighbours threeClients.entries.length) i <
      Arith.maxValue := by
  apply scores_small (by decide) threeClients_close
  show ((1 : ℕ) : ℝ) * 1 < (2 - 1 / 2^23) * 2^127
  norm_num

/-- Two clients and two others differ by the spread; the last one submits anything. -/
def fiveClients (spread far : ℝ) : WeightMap ℝ :=
  ⟨[⟨"a", [0]⟩, ⟨"b", [0]⟩, ⟨"c", [spread]⟩, ⟨"d", [spread]⟩, ⟨"e", [far]⟩],
    by simp [List.NodupKeys, List.keys]⟩

theorem fiveClients_weights {spread far : ℝ} (hspread : 0 ≤ spread) (hfar : spread ≤ far) :
    ∀ e ∈ (fiveClients spread far).entries, ∃ x, e.2 = [x] ∧ 0 ≤ x ∧ x ≤ far ∧
      (e.1 ∉ ({"e"} : Finset String) → x ≤ spread) := by
  intro e he
  simp only [fiveClients, List.mem_cons, List.not_mem_nil, or_false] at he
  rcases he with rfl | rfl | rfl | rfl | rfl
  · exact ⟨0, rfl, le_rfl, hspread.trans hfar, fun _ => hspread⟩
  · exact ⟨0, rfl, le_rfl, hspread.trans hfar, fun _ => hspread⟩
  · exact ⟨spread, rfl, hspread, hfar, fun _ => le_rfl⟩
  · exact ⟨spread, rfl, hspread, hfar, fun _ => le_rfl⟩
  · exact ⟨far, rfl, hspread.trans hfar, le_rfl, fun hout => absurd (Finset.mem_singleton_self _) hout⟩

theorem fiveClients_dimension (spread far : ℝ) :
    ∀ e ∈ (fiveClients spread far).entries, e.2.length = 1 := by
  intro e he
  simp only [fiveClients, List.mem_cons, List.not_mem_nil, or_false] at he
  rcases he with rfl | rfl | rfl | rfl | rfl <;> rfl

theorem fiveClients_neighbours (spread far : ℝ) :
    neighbours (fiveClients spread far).entries.length = 2 := by
  show neighbours 5 = 2
  decide

theorem squaredDistance_single {x y bound : ℝ} (hx : 0 ≤ x ∧ x ≤ bound)
    (hy : 0 ≤ y ∧ y ≤ bound) : squaredDistance [x] [y] ≤ bound ^ 2 := by
  rw [squaredDistance_exact, List.zipWith_cons_cons, List.zipWith_nil_left, List.sum_singleton]
  exact sq_le_sq' (by linarith) (by linarith)

theorem fiveClients_scores {spread : ℝ} (hspread : 0 ≤ spread ∧ spread ≤ (1000 : ℤ)) :
    ∀ i < (fiveClients spread (1000 : ℤ)).entries.length,
      krumScore (vectorsOf (fiveClients spread (1000 : ℤ)))
        (neighbours (fiveClients spread (1000 : ℤ)).entries.length) i < Arith.maxValue := by
  apply scores_small (D := ((1000 : ℤ) : ℝ) ^ 2) (Nat.le_of_ble_eq_true rfl)
  · intro a ha b hb
    obtain ⟨x, hx, hx0, hx1, -⟩ := fiveClients_weights hspread.1 hspread.2 a ha
    obtain ⟨y, hy, hy0, hy1, -⟩ := fiveClients_weights hspread.1 hspread.2 b hb
    rw [hx, hy]
    exact squaredDistance_single ⟨hx0, hx1⟩ ⟨hy0, hy1⟩
  · rw [fiveClients_neighbours]
    show ((2 : ℕ) : ℝ) * ((1000 : ℤ) : ℝ) ^ 2 < (2 - 1 / 2^23) * 2^127
    norm_num

/-- One of five clients submits 1000. The others are at most one apart, and the
result is near to one of theirs; where they agree, it is theirs. -/
theorem aggKrum_resilient_fiveClients :
    (∃ e ∈ (fiveClients 1 (1000 : ℤ)).entries, e.1 ≠ "e" ∧
      squaredDistance (aggKrum (fiveClients 1 (1000 : ℤ))) e.2 ≤ (2 : ℤ)) ∧
    aggKrum (fiveClients 0 (1000 : ℤ)) = [0] := by
  have hone : (0 : ℝ) ≤ 1 ∧ (1 : ℝ) ≤ (1000 : ℤ) := by norm_num
  have hzero : (0 : ℝ) ≤ 0 ∧ (0 : ℝ) ≤ (1000 : ℤ) := by norm_num
  constructor
  · obtain ⟨e, he, hout, hle⟩ := (aggKrum_resilient (Nat.le_of_ble_eq_true rfl)
      (fiveClients_dimension 1 (1000 : ℤ)) (B := {"e"}) (Nat.le_of_ble_eq_true rfl)
      (fiveClients_scores hone)).1 (1 ^ 2) (by
        intro a ha b hb hainside hbinside _
        obtain ⟨x, hx, hx0, -, hx1⟩ := fiveClients_weights hone.1 hone.2 a ha
        obtain ⟨y, hy, hy0, -, hy1⟩ := fiveClients_weights hone.1 hone.2 b hb
        rw [hx, hy]
        exact squaredDistance_single ⟨hx0, hx1 hainside⟩ ⟨hy0, hy1 hbinside⟩)
    refine ⟨e, he, fun heq => hout (Finset.mem_singleton.mpr heq), hle.trans ?_⟩
    rw [fiveClients_neighbours]
    norm_num
  · apply (aggKrum_resilient (Nat.le_of_ble_eq_true rfl) (fiveClients_dimension 0 (1000 : ℤ))
      (B := {"e"}) (Nat.le_of_ble_eq_true rfl) (fiveClients_scores hzero)).2
    intro e he hout
    obtain ⟨x, hx, hx0, -, hx1⟩ := fiveClients_weights hzero.1 hzero.2 e he
    rw [hx, le_antisymm (hx1 hout) hx0]

end

end PqFl.KrumResilience
