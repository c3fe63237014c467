import PqFl.Configuration
import PqFl.Rounding
import PqFl.ThresholdRounds

/-!
# When a round is aggregated

The submissions below the required number are kept as they come; only the one
that completes the number has them checked, and only that one is taken out
again. A malformed vector among the first stays for good, and every later
submission fails with it.
-/

set_option autoImplicit false

namespace PqFl.RoundCompletion
open PqFl.Identifiers PqFl.Crypto PqFl.Aggregation PqFl.StoreRecords PqFl.Buffer PqFl.Floats
open PqFl.ThresholdRounds PqFl.Configuration

section
variable {F : Type}

theorem entries_insert_fresh {weights : WeightMap F} {c : String} (h : c ∉ weights) (w : List F) :
    (weights.insert c w).entries = ⟨c, w⟩ :: weights.entries := by
  show ⟨c, w⟩ :: weights.entries.kerase c = _
  rw [List.kerase_of_notMem_keys h]

variable [FloatArith F]

/-- A call of `AddWeightAndCheckAggregate`, and what the world adds to it. -/
structure Arrival (F : Type) where
  config : AggregationConfig F
  engine : CryptoEngine
  submission : Submission F
  draw : Draw F
  now : ℕ

structure Site (F : Type) where
  buffer : WeightBuffer F
  files : CheckpointFiles
  store : StateStore

def addNext (P : Primitives) (s : Site F) (a : Arrival F) : Site F :=
  match addWeightAndCheckAggregate P a.config a.engine s.files s.store s.buffer a.submission
      a.draw a.now with
  | (buffer, files, none, _) => ⟨buffer, files, s.store⟩
  | (buffer, files, some recorded, _) => ⟨buffer, files, recorded.store⟩

def addAll (P : Primitives) (s : Site F) (arrivals : List (Arrival F)) : Site F :=
  arrivals.foldl (addNext P) s

/-- The call is for the round, with its number of clients, and can write its checkpoint. -/
structure ArrivesAt (key : String) (threshold : ℕ) (a : Arrival F) : Prop where
  round : roundKey a.submission.tenantId a.submission.modelId a.submission.round = key
  required : a.submission.requiredClients = threshold
  written : a.draw.persistence = .written

/-- Finite values, of one dimension which is not zero. -/
def wellFormed (dimension : ℕ) (v : List F) : Bool :=
  dimension != 0 && v.length == dimension && v.all Arith.isFinite

def clipped (a : Arrival F) : List F := clipWeights a.submission.weights a.config.clipNorm

theorem wellFormed_iff {dimension : ℕ} {v : List F} : wellFormed dimension v = true ↔
    dimension ≠ 0 ∧ v.length = dimension ∧ v.all Arith.isFinite = true := by
  simp only [wellFormed, Bool.and_eq_true, bne_iff_ne, beq_iff_eq, and_assoc]

theorem validateWeights_iff {weights : WeightMap F} (h : weights.entries ≠ []) :
    validateWeights weights = "" ↔ Agree wellFormed (weights.entries.map (·.2)) := by
  obtain ⟨first, rest, hentries⟩ := List.exists_cons_of_ne_nil h
  unfold validateWeights
  rw [hentries]
  simp only
  by_cases hempty : first.2.length = 0
  · rw [if_pos hempty]
    refine iff_of_false (by decide) ?_
    rintro ⟨dimension, hall⟩
    have hfirst := wellFormed_iff.mp (hall first.2 List.mem_cons_self)
    omega
  · rw [if_neg hempty]
    constructor
    · intro hvalid
      refine ⟨first.2.length, ?_⟩
      intro v hv
      obtain ⟨entry, hentry, rfl⟩ := List.mem_map.mp hv
      cases hfind : (first::rest).find? (fun entry =>
          entry.2.length != first.2.length || !entry.2.all Arith.isFinite) with
      | none =>
        have hgood := List.find?_eq_none.mp hfind entry hentry
        simp only [Bool.or_eq_true, bne_iff_ne, Bool.not_eq_true', not_or, ne_eq, not_not,
          Bool.not_eq_false] at hgood
        exact wellFormed_iff.mpr ⟨hempty, hgood⟩
      | some bad =>
        rw [hfind] at hvalid
        simp only at hvalid
        split at hvalid
        · exact absurd hvalid (by decide)
        · have hnil := congrArg String.toList hvalid
          rw [String.toList_append] at hnil
          exact absurd (List.append_eq_nil_iff.mp hnil).1 (by decide)
    · rintro ⟨dimension, hall⟩
      have hfirst := wellFormed_iff.mp (hall first.2 List.mem_cons_self)
      have hfind : (first::rest).find? (fun entry =>
          entry.2.length != first.2.length || !entry.2.all Arith.isFinite) = none := by
        apply List.find?_eq_none.mpr
        intro entry hentry
        have hgood := wellFormed_iff.mp (hall entry.2 (List.mem_map_of_mem hentry))
        simp [hgood.2.1, hgood.2.2, hfirst.2.1]
      rw [hfind]

/-- What the buffer holds of a round. -/
def roundOf (b : WeightBuffer F) (key : String) : Round (List F) :=
  if key ∈ b.completedRounds then .closed
  else .collecting ((submissions b key).entries.map (·.2))

theorem addNext_buffer (P : Primitives) (s : Site F) (a : Arrival F) : (addNext P s a).buffer =
    (addWeightAndCheckAggregate P a.config a.engine s.files s.store s.buffer a.submission a.draw
      a.now).1 := by
  unfold addNext
  split
  · rename_i heq
    rw [heq]
  · rename_i heq
    rw [heq]

theorem mem_addNext {P : Primitives} {s : Site F} {a : Arrival F} {key x : String}
    (hx : x ∈ submissions (addNext P s a).buffer key) :
    x = a.submission.clientId ∨ x ∈ submissions s.buffer key := by
  have hadded := addWeight_added P a.config a.engine s.files s.buffer a.submission a.draw
  rw [addNext_buffer] at hx
  unfold addWeightAndCheckAggregate at hx
  split at hx
  · rename_i heq
    rw [heq] at hadded
    exact (hadded.mem_submissions hx).imp_left And.right
  · rename_i heq
    rw [heq] at hadded
    exact (hadded.mem_submissions hx).imp_left And.right

theorem roundOf_addNext {P : Primitives} {s : Site F} {a : Arrival F} {key : String}
    {threshold : ℕ} (hthreshold : 1 ≤ threshold) (h : ArrivesAt key threshold a)
    (hfresh : a.submission.clientId ∉ submissions s.buffer key) :
    roundOf (addNext P s a).buffer key =
      arrive wellFormed threshold (roundOf s.buffer key) (clipped a) := by
  obtain ⟨hround, hrequired, hwritten⟩ := h
  rw [addNext_buffer]
  unfold addWeightAndCheckAggregate addWeight
  simp only [hround, hrequired, max_eq_right hthreshold]
  by_cases hclosed : key ∈ s.buffer.completedRounds
  · rw [if_pos hclosed]
    simp only [roundOf, if_pos hclosed, arrive]
  rw [if_neg hclosed]
  have hsub : submissions (insertSubmission s.buffer a.config.clipNorm a.submission) key =
      (submissions s.buffer key).insert a.submission.clientId (clipped a) := by
    rw [submissions_insertSubmission, if_pos hround.symm]
    rfl
  have hentries := entries_insert_fresh hfresh (clipped a)
  have hopen : roundOf s.buffer key =
      .collecting ((submissions s.buffer key).entries.map (·.2)) := if_neg hclosed
  rw [hopen, hsub, hentries]
  simp only [arrive, List.length_map, List.length_cons]
  by_cases hmore : (submissions s.buffer key).entries.length + 1 < threshold
  · rw [if_pos hmore, if_pos hmore]
    have hstill : key ∉
        (insertSubmission s.buffer a.config.clipNorm a.submission).completedRounds := hclosed
    show roundOf (insertSubmission s.buffer a.config.clipNorm a.submission) key = _
    rw [roundOf, if_neg hstill, hsub, hentries, List.map_cons]
  rw [if_neg hmore, if_neg hmore]
  have hnonempty : ((submissions s.buffer key).insert a.submission.clientId (clipped a)).entries ≠
      [] := by
    rw [hentries]
    exact List.cons_ne_nil _ _
  have hvalid := validateWeights_iff hnonempty
  rw [hentries, List.map_cons] at hvalid
  by_cases hagree : Agree wellFormed (clipped a :: (submissions s.buffer key).entries.map (·.2))
  · rw [if_pos hagree, if_neg (not_not.mpr (hvalid.mpr hagree))]
    simp only [persist, hwritten, publish, hround]
    exact if_pos (Finset.mem_insert_self _ _)
  · rw [if_neg hagree, if_pos (fun hempty => hagree (hvalid.mp hempty))]
    simp only [refuse, hround]
    have hstill : key ∉ (removeSubmissionLocked (insertSubmission s.buffer a.config.clipNorm
        a.submission) key a.submission.clientId).completedRounds := hclosed
    rw [roundOf, if_neg hstill, submissions_removeSubmissionLocked, if_pos rfl, hsub,
      NestedMaps.erase_insert, NestedMaps.erase_absent hfresh]

theorem roundOf_addAll {P : Primitives} {key : String} {threshold : ℕ} {s : Site F}
    {arrivals : List (Arrival F)} (hthreshold : 1 ≤ threshold)
    (h : ∀ a ∈ arrivals, ArrivesAt key threshold a)
    (hclients : (arrivals.map (fun a => a.submission.clientId)).Nodup)
    (hfresh : ∀ a ∈ arrivals, a.submission.clientId ∉ submissions s.buffer key) :
    roundOf (addAll P s arrivals).buffer key =
      (arrivals.map clipped).foldl (arrive wellFormed threshold) (roundOf s.buffer key) := by
  induction arrivals generalizing s with
  | nil => rfl
  | cons a arrivals ih =>
    rw [List.map_cons, List.nodup_cons] at hclients
    have hstep := roundOf_addNext (P := P) hthreshold (h a List.mem_cons_self)
      (hfresh a List.mem_cons_self)
    rw [List.map_cons, List.foldl_cons, ← hstep]
    apply ih (fun x hx => h x (List.mem_cons_of_mem _ hx)) hclients.2
    intro x hx hmem
    rcases mem_addNext hmem with heq | hold
    · exact hclients.1 (heq ▸ List.mem_map_of_mem (f := fun a => a.submission.clientId) hx)
    · exact hfresh x (List.mem_cons_of_mem _ hx) hold

end

/-- Enough of the vectors are well-formed and of one dimension. -/
def EnoughWellFormed (threshold : ℕ) (vs : List (List Binary32)) : Prop :=
  ∃ dimension, threshold ≤ vs.countP (wellFormed dimension)

/-- And the vectors that are kept unchecked are among them. -/
def FirstWellFormed (threshold : ℕ) (vs : List (List Binary32)) : Prop :=
  ∃ dimension, threshold ≤ vs.countP (wellFormed dimension) ∧
    ∀ v ∈ vs.take (threshold - 1), wellFormed dimension v = true

theorem wellFormed_clipped (dimension : ℕ) (a : Arrival Binary32) :
    wellFormed dimension (clipped a) = wellFormed dimension a.submission.weights := by
  unfold wellFormed clipped
  rw [all_finite_clipWeights, clipWeights_length]

theorem isRoundCompleted_iff (b : WeightBuffer Binary32) (t m : String) (r : ℤ) :
    isRoundCompleted b t m r = true ↔ roundOf b (roundKey t m r) = .closed := by
  unfold isRoundCompleted roundOf
  rw [decide_eq_true_eq]
  split
  · rename_i hclosed
    exact iff_of_true hclosed rfl
  · rename_i hopen
    exact iff_of_false hopen (by simp)

theorem completed_iff {P : Primitives} {s : Site Binary32} {t m : String} {r : ℤ} {threshold : ℕ}
    {arrivals : List (Arrival Binary32)} (hthreshold : 1 ≤ threshold)
    (h : ∀ a ∈ arrivals, ArrivesAt (roundKey t m r) threshold a)
    (hclients : (arrivals.map (fun a => a.submission.clientId)).Nodup)
    (hopen : isRoundCompleted s.buffer t m r = false) (hnone : getNumClients s.buffer t m r = 0) :
    isRoundCompleted (addAll P s arrivals).buffer t m r = true ↔
      FirstWellFormed threshold (arrivals.map (fun a => a.submission.weights)) := by
  rw [getNumClients_eq, List.length_eq_zero_iff] at hnone
  have hempty : roundOf s.buffer (roundKey t m r) = .collecting [] := by
    unfold isRoundCompleted at hopen
    rw [decide_eq_false_iff_not] at hopen
    rw [roundOf, if_neg hopen, hnone, List.map_nil]
  have hfresh : ∀ a ∈ arrivals,
      a.submission.clientId ∉ submissions s.buffer (roundKey t m r) := by
    intro a _ hmem
    have hkeys := AList.mem_keys.mp hmem
    rw [AList.keys, hnone] at hkeys
    exact List.not_mem_nil hkeys
  rw [isRoundCompleted_iff, roundOf_addAll hthreshold h hclients hfresh, hempty,
    closed_iff wellFormed threshold hthreshold]
  apply exists_congr
  intro dimension
  have hsame : wellFormed dimension ∘ clipped =
      wellFormed dimension ∘ fun a : Arrival Binary32 => a.submission.weights :=
    funext (wellFormed_clipped dimension)
  rw [List.countP_map, List.countP_map, hsame, ← List.map_take, ← List.map_take,
    List.forall_mem_map, List.forall_mem_map]
  simp only [wellFormed_clipped]

/-- Enough well-formed vectors complete a round if and only if, where there are
enough, those that arrive below the required number are among them. -/
theorem enough_completes_iff {P : Primitives} {s : Site Binary32} {t m : String} {r : ℤ}
    {threshold : ℕ} {arrivals : List (Arrival Binary32)} (hthreshold : 1 ≤ threshold)
    (h : ∀ a ∈ arrivals, ArrivesAt (roundKey t m r) threshold a)
    (hclients : (arrivals.map (fun a => a.submission.clientId)).Nodup)
    (hopen : isRoundCompleted s.buffer t m r = false) (hnone : getNumClients s.buffer t m r = 0) :
    (EnoughWellFormed threshold (arrivals.map (fun a => a.submission.weights)) →
        isRoundCompleted (addAll P s arrivals).buffer t m r = true) ↔
      (EnoughWellFormed threshold (arrivals.map (fun a => a.submission.weights)) →
        FirstWellFormed threshold (arrivals.map (fun a => a.submission.weights))) := by
  rw [completed_iff hthreshold h hclients hopen hnone]

def firstWorld : Services.World Binary32 := (Process.initial standardDeployment firstStart).world

def firstSite : Site Binary32 := ⟨firstWorld.buffer, firstWorld.files, firstWorld.store⟩

/-- A client submits to the first round, for which two clients are needed. -/
def arrival (clientId : String) (weights : List Binary32) : Arrival Binary32 :=
  ⟨defaultConfig.toAggregationConfig, firstWorld.crypto, ⟨"t", "m", clientId, 1, 1, weights, 2⟩,
    (calm 0).draw, 0⟩

theorem arrival_arrivesAt (clientId : String) (weights : List Binary32) :
    ArrivesAt (roundKey "t" "m" 1) 2 (arrival clientId weights) := ⟨rfl, rfl, rfl⟩

def one : Binary32 := ofInt 1

theorem arrivals_arriveAt (vs : List (String × List Binary32)) :
    ∀ a ∈ vs.map (fun v => arrival v.1 v.2), ArrivesAt (roundKey "t" "m" 1) 2 a := by
  intro a ha
  obtain ⟨v, -, rfl⟩ := List.mem_map.mp ha
  exact arrival_arrivesAt v.1 v.2

/-- Two vectors that agree. -/
def pair : List (Arrival Binary32) :=
  [("a", [one]), ("b", [one])].map (fun v => arrival v.1 v.2)

theorem enough_completes_pair :
    isRoundCompleted (addAll standInPrimitives firstSite pair).buffer "t" "m" 1 = true := by
  have harrive := arrivals_arriveAt [("a", [one]), ("b", [one])]
  have hiff := enough_completes_iff (P := standInPrimitives) (s := firstSite) (by decide) harrive
    (by decide) (by decide) (by decide)
  have hfirst : FirstWellFormed 2 [[one], [one]] := ⟨1, by decide +kernel⟩
  have henough : EnoughWellFormed 2 [[one], [one]] := ⟨1, by decide +kernel⟩
  exact hiff.mpr (fun _ => hfirst) henough

/-- A longer vector comes first, and two that agree come after it. -/
def blocked : List (Arrival Binary32) :=
  [("a", [one, one]), ("b", [one]), ("c", [one])].map (fun v => arrival v.1 v.2)

theorem malformed_first_blocks :
    (∀ a ∈ blocked, ArrivesAt (roundKey "t" "m" 1) 2 a) ∧
    (blocked.map (fun a => a.submission.clientId)).Nodup ∧
    EnoughWellFormed 2 (blocked.map (fun a => a.submission.weights)) ∧
    isRoundCompleted (addAll standInPrimitives firstSite blocked).buffer "t" "m" 1 = false := by
  refine ⟨arrivals_arriveAt _, by decide, ⟨1, ?_⟩, ?_⟩
  · decide +kernel
  · decide +kernel

end PqFl.RoundCompletion
