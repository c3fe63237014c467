import PqFl.RejectedAttempts
import PqFl.SampleWeights

/-!
# Histories of the weight buffer

The submissions and their sizes are two maps of maps which the methods update in
parallel. A history records what every attempt returned. It tells which clients
an open round has: those whose last attempt for the round was accepted.
-/

set_option autoImplicit false

namespace PqFl.BufferHistories
open PqFl.Identifiers PqFl.Crypto PqFl.Aggregation PqFl.StoreRecords PqFl.Buffer PqFl.Floats
open PqFl.NestedMaps PqFl.ListUpdate PqFl.RejectedAttempts PqFl.SampleWeights
open PqFl.Configuration PqFl.RoundCompletion

/-- An attempt of a client for a round, with what it returned. -/
structure AddCall where
  key : String
  clientId : String
  accepted : Bool
  deriving DecidableEq

def isCallOf (key clientId : String) (call : AddCall) : Bool :=
  call.key == key && call.clientId == clientId

def lastOutcome (calls : List AddCall) (key clientId : String) : Option Bool :=
  (findLast (isCallOf key clientId) calls).map (·.accepted)

theorem lastOutcome_own (calls : List AddCall) (key clientId : String) (accepted : Bool) :
    lastOutcome (calls ++ [⟨key, clientId, accepted⟩]) key clientId = some accepted := by
  rw [lastOutcome, findLast, List.reverse_append, List.reverse_singleton, List.singleton_append,
    List.find?_cons_of_pos (by simp [isCallOf])]
  rfl

theorem lastOutcome_other (calls : List AddCall) {call : AddCall} {key clientId : String}
    (h : ¬ (call.key = key ∧ call.clientId = clientId)) :
    lastOutcome (calls ++ [call]) key clientId = lastOutcome calls key clientId := by
  have hmiss : ¬ isCallOf key clientId call = true := by
    rw [isCallOf, Bool.and_eq_true, beq_iff_eq, beq_iff_eq]
    exact h
  rw [lastOutcome, findLast, List.reverse_append, List.reverse_singleton, List.singleton_append,
    List.find?_cons_of_neg hmiss]
  rfl

section
variable {F : Type}

def addCall (q : Submission F) (accepted : Bool) : AddCall :=
  ⟨roundKey q.tenantId q.modelId q.round, q.clientId, accepted⟩

def PositiveSizes (b : WeightBuffer F) : Prop :=
  ∀ key c n, (datasetSizes b key).lookup c = some n → 1 ≤ n

theorem datasetSizes_removeSubmissionLocked (b : WeightBuffer F) (key clientId key' : String) :
    datasetSizes (removeSubmissionLocked b key clientId) key' =
      if key' = key then (datasetSizes b key').erase clientId else datasetSizes b key' := by
  rw [removeSubmissionLocked_eq]
  have h := innerMap_eraseAt b.roundDatasetSizes key key' clientId
  by_cases hkey : key' = key
  · subst hkey
    exact h
  · rw [if_neg hkey] at h ⊢
    exact h

theorem PositiveSizes.removed {b : WeightBuffer F} (h : PositiveSizes b) (key clientId : String) :
    PositiveSizes (removeSubmissionLocked b key clientId) := by
  intro key' c n hlookup
  rw [removeSubmissionLocked_eq] at hlookup
  have hinner := innerMap_eraseAt b.roundDatasetSizes key key' clientId
  have hlookup' : (innerMap (eraseAt b.roundDatasetSizes key clientId) key').lookup c = some n :=
    hlookup
  rw [hinner] at hlookup'
  by_cases hkey : key' = key
  · rw [if_pos hkey] at hlookup'
    by_cases hc : c = clientId
    · rw [hc, AList.lookup_erase] at hlookup'
      cases hlookup'
    · rw [AList.lookup_erase_ne hc] at hlookup'
      exact h key c n hlookup'
  · rw [if_neg hkey] at hlookup'
    exact h key' c n hlookup'

def StoredAccepted (b : WeightBuffer F) (calls : List AddCall) : Prop :=
  ∀ key, key ∉ b.completedRounds → ∀ c,
    c ∈ submissions b key ↔ lastOutcome calls key c = some true

theorem StoredAccepted.others {b b' : WeightBuffer F} {calls : List AddCall} {q : Submission F}
    {accepted : Bool} (h : StoredAccepted b calls)
    (hcompleted : ∀ key, key ∉ b'.completedRounds → key ∉ b.completedRounds)
    (hothers : ∀ key c, ¬ (roundKey q.tenantId q.modelId q.round = key ∧ q.clientId = c) →
      (c ∈ submissions b' key ↔ c ∈ submissions b key))
    (hown : roundKey q.tenantId q.modelId q.round ∉ b'.completedRounds →
      (q.clientId ∈ submissions b' (roundKey q.tenantId q.modelId q.round) ↔ accepted = true)) :
    StoredAccepted b' (calls ++ [addCall q accepted]) := by
  intro key hkey c
  by_cases hcall : roundKey q.tenantId q.modelId q.round = key ∧ q.clientId = c
  · obtain ⟨rfl, rfl⟩ := hcall
    rw [hown hkey, addCall, lastOutcome_own, Option.some.injEq]
  · rw [hothers key c hcall, lastOutcome_other calls hcall]
    exact h key (hcompleted key hkey) c

/-- The total of the sizes is over the clients whose vectors are summed. -/
structure SameClients (weights : WeightMap F) (sizes : SizeMap) : Prop where
  clients : sizes.keys.Perm weights.keys
  counted : ∀ c ∈ weights, ∃ n, sizes.lookup c = some n ∧ 1 ≤ n
  total : totalSamples sizes =
    let count := (weights.keys.map (sampleSize sizes)).sum
    if count < 2^31 then some count else none

theorem sameClients_of_mem {weights : WeightMap F} {sizes : SizeMap}
    (hclients : ∀ c, c ∈ weights ↔ c ∈ sizes)
    (hpositive : ∀ c n, sizes.lookup c = some n → 1 ≤ n) : SameClients weights sizes := by
  have hperm : sizes.keys.Perm weights.keys :=
    (List.perm_ext_iff_of_nodup sizes.keys_nodup weights.keys_nodup).mpr
      (fun c => (hclients c).symm)
  constructor
  · exact hperm
  · intro c hc
    obtain ⟨n, hn⟩ := Option.isSome_iff_exists.mp (AList.lookup_isSome.mpr ((hclients c).mp hc))
    exact ⟨n, hn, hpositive c n hn⟩
  · rw [← sampleCount_of_keys hperm]
    exact totalSamples_of_positive (fun e he => hpositive e.1 e.2 (AList.mem_lookup_iff.mpr he))

variable [FloatArith F]

/-- The buffers that the methods come to, with the attempts so far. -/
inductive History : WeightBuffer F → List AddCall → Prop
  | empty : History emptyBuffer []
  | added {b : WeightBuffer F} {calls : List AddCall} (h : History b calls) (P : Primitives)
      (cfg : AggregationConfig F) (e : CryptoEngine) (files : CheckpointFiles) (store : StateStore)
      (q : Submission F) (draw : Draw F) (now : ℕ) :
      History (addWeightAndCheckAggregate P cfg e files store b q draw now).1
        (calls ++ [addCall q
          (addWeightAndCheckAggregate P cfg e files store b q draw now).2.2.2.accepted])
  | restored {b : WeightBuffer F} {calls : List AddCall} (h : History b calls) (t m : String)
      (r v : ℤ) (weights : List F) : History (restoreLatestGlobalModel b t m r v weights) calls

theorem History.grown {b : WeightBuffer F} {calls : List AddCall} (h : History b calls) :
    Grown b := by
  induction h with
  | empty => exact .empty
  | added _ P cfg e files store q draw now ih => exact .added ih P cfg e files store q draw now
  | restored _ t m r v weights ih => exact .restored ih t m r v weights

theorem datasetSizes_insertSubmission (b : WeightBuffer F) (clipNorm : F) (q : Submission F)
    (key : String) : datasetSizes (insertSubmission b clipNorm q) key =
      if key = roundKey q.tenantId q.modelId q.round then
        (datasetSizes b key).insert q.clientId (max 1 q.datasetSize)
      else datasetSizes b key := by
  have h := innerMap_insertAt b.roundDatasetSizes (roundKey q.tenantId q.modelId q.round) key
    q.clientId (max 1 q.datasetSize)
  by_cases hkey : key = roundKey q.tenantId q.modelId q.round
  · subst hkey
    exact h
  · rw [if_neg hkey] at h ⊢
    exact h

theorem PositiveSizes.inserted {b : WeightBuffer F} (h : PositiveSizes b) (clipNorm : F)
    (q : Submission F) : PositiveSizes (insertSubmission b clipNorm q) := by
  intro key c n hlookup
  rw [datasetSizes_insertSubmission] at hlookup
  by_cases hkey : key = roundKey q.tenantId q.modelId q.round
  · rw [if_pos hkey] at hlookup
    by_cases hc : c = q.clientId
    · rw [hc, AList.lookup_insert, Option.some.injEq] at hlookup
      omega
    · rw [AList.lookup_insert_ne hc] at hlookup
      exact h key c n hlookup
  · rw [if_neg hkey] at hlookup
    exact h key c n hlookup

theorem PositiveSizes.attempted {cfg : AggregationConfig F} {b b' : WeightBuffer F}
    {q : Submission F} {noise overflow : ℕ → F} {accepted : Bool} (h : PositiveSizes b)
    (hattempt : Attempted cfg b q noise overflow b' accepted) : PositiveSizes b' := by
  have hcomputed : PositiveSizes
      (computeAggregate (insertSubmission b cfg.clipNorm q) cfg q noise overflow).1 := by
    obtain ⟨velocity, hvelocity⟩ := computeAggregate_velocity
      (insertSubmission b cfg.clipNorm q) cfg q noise overflow
    rw [hvelocity]
    exact h.inserted cfg.clipNorm q
  cases hattempt with
  | late _ => exact h
  | waiting _ => exact h.inserted _ _
  | invalid _ _ => exact (h.inserted _ _).removed _ _
  | unwritten _ _ => exact hcomputed.removed _ _
  | aggregated _ result version => exact hcomputed

theorem History.positiveSizes {b : WeightBuffer F} {calls : List AddCall} (h : History b calls) :
    PositiveSizes b := by
  induction h with
  | empty =>
    intro key c n hlookup
    cases hlookup
  | added _ P cfg e files store q draw now ih =>
    exact ih.attempted (attempt_cases P cfg e files store _ q draw now)
  | restored _ t m r v weights ih => exact ih

theorem mem_inserted {b : WeightBuffer F} {clipNorm : F} {q : Submission F} {key c : String}
    (h : ¬ (roundKey q.tenantId q.modelId q.round = key ∧ q.clientId = c)) :
    c ∈ submissions (insertSubmission b clipNorm q) key ↔ c ∈ submissions b key := by
  rw [submissions_insertSubmission]
  by_cases hkey : key = roundKey q.tenantId q.modelId q.round
  · rw [if_pos hkey, AList.mem_insert]
    constructor
    · rintro (rfl | hmem)
      · exact absurd ⟨hkey.symm, rfl⟩ h
      · exact hmem
    · exact .inr
  · rw [if_neg hkey]

theorem own_inserted (b : WeightBuffer F) (clipNorm : F) (q : Submission F) :
    q.clientId ∈ submissions (insertSubmission b clipNorm q)
      (roundKey q.tenantId q.modelId q.round) := by
  rw [submissions_insertSubmission, if_pos rfl, AList.mem_insert]
  exact .inl rfl

theorem StoredAccepted.rolledBack {b x : WeightBuffer F} {calls : List AddCall} {clipNorm : F}
    {q : Submission F} (h : StoredAccepted b calls)
    (hweights : ∀ key, submissions x key = submissions (insertSubmission b clipNorm q) key)
    (hcompleted : x.completedRounds = b.completedRounds) :
    StoredAccepted (removeSubmissionLocked x (roundKey q.tenantId q.modelId q.round) q.clientId)
      (calls ++ [addCall q false]) := by
  apply h.others
  · intro key hkey
    rw [← hcompleted]
    exact hkey
  · intro key c hcall
    rw [submissions_removeSubmissionLocked]
    by_cases hkey : key = roundKey q.tenantId q.modelId q.round
    · rw [if_pos hkey, AList.mem_erase, hweights, mem_inserted hcall]
      have hc : c ≠ q.clientId := fun heq => hcall ⟨hkey.symm, heq.symm⟩
      exact and_iff_right hc
    · rw [if_neg hkey, hweights, mem_inserted hcall]
  · intro _
    rw [submissions_removeSubmissionLocked, if_pos rfl, AList.mem_erase]
    simp

theorem StoredAccepted.attempted {cfg : AggregationConfig F} {b b' : WeightBuffer F}
    {calls : List AddCall} {q : Submission F} {noise overflow : ℕ → F} {accepted : Bool}
    (h : StoredAccepted b calls) (hattempt : Attempted cfg b q noise overflow b' accepted) :
    StoredAccepted b' (calls ++ [addCall q accepted]) := by
  obtain ⟨velocity, hvelocity⟩ := computeAggregate_velocity
    (insertSubmission b cfg.clipNorm q) cfg q noise overflow
  cases hattempt with
  | late hlate =>
    apply h.others
    · exact fun key hkey => hkey
    · exact fun key c _ => Iff.rfl
    · exact fun hopen => absurd hlate hopen
  | waiting hopen =>
    apply h.others
    · exact fun key hkey => hkey
    · exact fun key c hcall => mem_inserted hcall
    · exact fun _ => iff_of_true (own_inserted b cfg.clipNorm q) rfl
  | invalid hopen hinvalid => exact h.rolledBack (fun _ => rfl) rfl
  | unwritten hopen hvalid =>
    rw [hvelocity]
    exact h.rolledBack (fun _ => rfl) rfl
  | aggregated hopen result version =>
    rw [hvelocity]
    apply h.others
    · intro key hkey hold
      exact hkey (Finset.mem_insert_of_mem hold)
    · exact fun key c hcall => mem_inserted hcall
    · exact fun hkey => absurd (Finset.mem_insert_self _ _) hkey

theorem History.storedAccepted {b : WeightBuffer F} {calls : List AddCall} (h : History b calls) :
    StoredAccepted b calls := by
  induction h with
  | empty =>
    intro key _ c
    constructor
    · intro hc
      exact absurd hc (AList.notMem_empty c)
    · intro hlast
      cases hlast
  | added _ P cfg e files store q draw now ih =>
    exact ih.attempted (attempt_cases P cfg e files store _ q draw now)
  | restored _ t m r v weights ih => exact ih

structure Represented (b : WeightBuffer F) (calls : List AddCall) : Prop where
  rounds : ∀ key, key ∈ b.roundWeights ↔ key ∈ b.roundDatasetSizes
  clients : ∀ key c, c ∈ submissions b key ↔ c ∈ datasetSizes b key
  weights_occupied : ∀ key weights, b.roundWeights.lookup key = some weights → weights ≠ ∅
  sizes_occupied : ∀ key sizes, b.roundDatasetSizes.lookup key = some sizes → sizes ≠ ∅
  sizes : ∀ key c n, (datasetSizes b key).lookup c = some n → 1 ≤ n
  stored : ∀ key, key ∉ b.completedRounds → ∀ c,
    c ∈ submissions b key ↔ lastOutcome calls key c = some true

theorem History.represented {b : WeightBuffer F} {calls : List AddCall} (h : History b calls) :
    Represented b calls := by
  have hconsistent := h.grown.consistent
  constructor
  · intro key
    rw [hconsistent.weights.mem_iff, hconsistent.sizes.mem_iff]
    simp only [hconsistent.clients]
  · exact hconsistent.clients
  · exact hconsistent.weights
  · exact hconsistent.sizes
  · exact h.positiveSizes
  · exact h.storedAccepted

/-- In every buffer the two maps agree and have the accepted submissions of the
open rounds. Where the next attempt aggregates, the total of the sizes is over
the clients whose vectors are summed. -/
theorem buffer_represented {b : WeightBuffer F} {calls : List AddCall} (h : History b calls) :
    Represented b calls ∧ ∀ (cfg : AggregationConfig F) (q : Submission F),
      SameClients
        (submissions (insertSubmission b cfg.clipNorm q) (roundKey q.tenantId q.modelId q.round))
        (datasetSizes (insertSubmission b cfg.clipNorm q)
          (roundKey q.tenantId q.modelId q.round)) := by
  refine ⟨h.represented, ?_⟩
  intro cfg q
  have hconsistent := h.grown.consistent.inserted cfg.clipNorm q
  have hpositive := h.positiveSizes.inserted cfg.clipNorm q
  exact sameClients_of_mem (hconsistent.clients _) (hpositive _)

end

/-- A submission to round 1 which completes it with this many clients. -/
def submissionOf (clientId : String) (weights : List Binary32) (requiredClients : ℕ) :
    Submission Binary32 := ⟨"t", "m", clientId, 1, 1, weights, requiredClients⟩

def attemptOn (b : WeightBuffer Binary32) (q : Submission Binary32) :
    WeightBuffer Binary32 × CheckpointFiles × Option (Outcome ℤ) × AggregationAttemptResult :=
  addWeightAndCheckAggregate standInPrimitives (withMomentum (ofInt 0)) firstWorld.crypto
    firstWorld.files firstWorld.store b q (calm 0).draw 0

theorem attemptOn_history {b : WeightBuffer Binary32} {calls : List AddCall} (h : History b calls)
    (q : Submission Binary32) :
    History (attemptOn b q).1 (calls ++ [addCall q (attemptOn b q).2.2.2.accepted]) :=
  h.added standInPrimitives (withMomentum (ofInt 0)) firstWorld.crypto firstWorld.files
    firstWorld.store q (calm 0).draw 0

def oneWaiting : WeightBuffer Binary32 :=
  (attemptOn emptyBuffer (submissionOf "a" [ofInt 0] 3)).1

/-- Two clients wait for a third one. -/
def twoWaiting : WeightBuffer Binary32 := (attemptOn oneWaiting (submissionOf "b" [ofInt 1] 3)).1

theorem twoWaiting_history : History twoWaiting [addCall (submissionOf "a" [ofInt 0] 3) true,
    addCall (submissionOf "b" [ofInt 1] 3) true] := by
  have hfirst : (attemptOn emptyBuffer (submissionOf "a" [ofInt 0] 3)).2.2.2.accepted = true := by
    decide +kernel
  have hsecond : (attemptOn oneWaiting (submissionOf "b" [ofInt 1] 3)).2.2.2.accepted = true := by
    decide +kernel
  have hone := attemptOn_history .empty (submissionOf "a" [ofInt 0] 3)
  rw [hfirst] at hone
  have htwo := attemptOn_history (b := oneWaiting) hone (submissionOf "b" [ofInt 1] 3)
  rw [hsecond] at htwo
  exact htwo

/-- The first client submits again, now of another dimension. -/
def overwriting : Submission Binary32 := submissionOf "a" [ofInt 0, ofInt 0] 2

/-- The new submission is refused, and the old one does not come back. -/
theorem buffer_represented_overwritten :
    Represented (attemptOn twoWaiting overwriting).1 [addCall (submissionOf "a" [ofInt 0] 3) true,
      addCall (submissionOf "b" [ofInt 1] 3) true, addCall overwriting false] ∧
    (submissions twoWaiting (roundKey "t" "m" 1)).keys = ["b", "a"] ∧
    (submissions (attemptOn twoWaiting overwriting).1 (roundKey "t" "m" 1)).keys = ["b"] := by
  have hrejected : (attemptOn twoWaiting overwriting).2.2.2.accepted = false := by decide +kernel
  have hhistory := attemptOn_history twoWaiting_history overwriting
  rw [hrejected] at hhistory
  exact ⟨(buffer_represented hhistory).1, by decide +kernel, by decide +kernel⟩

end PqFl.BufferHistories
