import PqFl.BufferHistories
import PqFl.BufferSteps
import PqFl.PendingSubmissions

/-!
# Where pending vectors come from

A vector in the buffer was clipped from the weights to which the payload of a
request opened earlier in the run, after the request had passed the check of
its identity. The size beside it is that of the same request.
-/

set_option autoImplicit false

namespace PqFl.PayloadSources
open PqFl.Identifiers PqFl.StoreRecords PqFl.Crypto PqFl.Aggregation PqFl.Buffer PqFl.Services
open PqFl.Process PqFl.JobSteps PqFl.SubmissionTracking PqFl.PendingSubmissions PqFl.Runs
open PqFl.BufferSteps PqFl.BufferHistories

variable {F : Type} {d : Deployment F} {start : Start}
variable {ok : Server F → Action F → Prop} {s s' : Server F} {a : Action F}

/-- The request has passed the check of its identity. -/
def Passed (s : Server F) (q : SubmitWeightsRequest) (peer : Peer) : Prop :=
  .passed (requestScope q).1 (requestScope q).2 q.clientId
    (normalizePeerIdentity peer.identity) ∈ s.events

theorem startSubmit_passed {q : SubmitWeightsRequest} {peer : Peer}
    (h : stage (startSubmitWeights (F := F) s.world.registry q peer) ≠ 14) :
    Passed (startSubmit s q peer) q peer := by
  unfold startSubmitWeights at h
  split at h
  · exact absurd rfl h
  rename_i hchecks
  split at h
  · rename_i hregistered
    have hpasses : checkSubmitWeights q peer = "" ∧
        submitIsRegistered s.world.registry q peer = true := ⟨not_not.mp hchecks, hregistered⟩
    unfold Passed startSubmit Server.events
    rw [if_pos hpasses]
    apply List.mem_append_right
    exact List.mem_append_right _ List.mem_cons_self
  · exact absurd rfl h

variable [FloatArith F]

/-- The handler of the request stands before its payload, which opens to these weights. -/
def Opening (d : Deployment F) (s : Server F) (q : SubmitWeightsRequest) (raw : List F) : Prop :=
  ∃ c job, submitting s = some c ∧ c.q = q ∧ c.point = .decrypt job ∧
    decryptSubmission d.primitives s.world.crypto q c.peer = .ok raw ∧ Passed s q c.peer

/-- It stood there in an earlier state of the run. -/
def Opened (d : Deployment F) (start : Start) (ok : Server F → Action F → Prop) (s : Server F)
    (q : SubmitWeightsRequest) (raw : List F) : Prop :=
  ∃ x, Reaches (step d) ok (initial d start) x ∧ Reaches (step d) ok x s ∧ Opening d x q raw

theorem Opened.step {q : SubmitWeightsRequest} {raw : List F} (h : Opened d start ok s q raw)
    (ha : ok s a) (hs : step d s a = some s') : Opened d start ok s' q raw := by
  obtain ⟨x, hx, hrun, hopening⟩ := h
  exact ⟨x, hx, hrun.next ha hs, hopening⟩

theorem step_mem_events (h : step d s a = some s') {e : Event F} (he : e ∈ s.events) :
    e ∈ s'.events := by
  rcases step_history h with ⟨es, hhistory, hpast, -⟩ | ⟨hhistory, hpast⟩
  · rw [Server.events, hhistory, hpast, ← List.append_assoc]
    exact List.mem_append_left _ he
  · rw [Server.events, hhistory, hpast, List.append_nil]
    exact he

/-- A handler that has not come to its answer has let the request pass. -/
def HandlersPassed (s : Server F) : Prop :=
  ∀ c, submitting s = some c → stage c.point ≠ 14 → Passed s c.q c.peer

theorem step_handlersPassed (h : HandlersPassed s) (hs : step d s a = some s') :
    HandlersPassed s' := by
  intro c' hc' hstage
  cases step_jobStep hs with
  | moved _ _ _ _ hsubmit =>
    rw [hsubmit] at hc'
    exact step_mem_events hs (h c' hc' hstage)
  | create _ => exact step_mem_events hs (h c' hc' hstage)
  | @submit q peer _ =>
    rw [submitting_startSubmit] at hc'
    obtain rfl := Option.some.inj hc'
    exact startSubmit_passed hstage
  | @proceed c o hc =>
    obtain ⟨p, hnext, rfl⟩ := submitting_proceed.mp hc'
    have hbefore : stage c.point ≠ 14 := by
      intro hlast
      cases hp : c.point with
      | respond response countClients =>
        rw [hp] at hnext
        cases hnext
      | _ =>
        rw [hp] at hlast
        simp [stage] at hlast
    exact step_mem_events hs (h c hc hbefore)
  | restart hrestart =>
    obtain ⟨w, -, rfl⟩ := Option.map_eq_some_iff.mp hrestart
    cases hc'

/-- The vector and the size of every client are those of a request of it for the round. -/
def FromRequests (opened : SubmitWeightsRequest → List F → Prop) (clipNorm : F) (key : String)
    (clients : WeightMap F) (sizes : SizeMap) : Prop :=
  ∀ c v, clients.lookup c = some v → ∃ q raw, opened q raw ∧ requestKey q = key ∧
    q.clientId = c ∧ v = clipWeights raw clipNorm ∧ sizes.lookup c = some (max 1 q.localDatasetSize)

section
variable {opened opened' : SubmitWeightsRequest → List F → Prop} {clipNorm : F} {key : String}
variable {clients : WeightMap F} {sizes : SizeMap}

theorem FromRequests.mono (h : FromRequests opened clipNorm key clients sizes)
    (hopened : ∀ q raw, opened q raw → opened' q raw) :
    FromRequests opened' clipNorm key clients sizes := by
  intro c v hv
  obtain ⟨q, raw, hq, hrest⟩ := h c v hv
  exact ⟨q, raw, hopened q raw hq, hrest⟩

theorem FromRequests.insert (h : FromRequests opened clipNorm key clients sizes)
    {q : SubmitWeightsRequest} {raw : List F} (hq : opened q raw) (hkey : requestKey q = key) :
    FromRequests opened clipNorm key (clients.insert q.clientId (clipWeights raw clipNorm))
      (sizes.insert q.clientId (max 1 q.localDatasetSize)) := by
  intro c v hv
  by_cases hc : c = q.clientId
  · subst hc
    rw [AList.lookup_insert] at hv
    refine ⟨q, raw, hq, hkey, rfl, (Option.some.inj hv).symm, ?_⟩
    rw [AList.lookup_insert]
  · rw [AList.lookup_insert_ne hc] at hv ⊢
    exact h c v hv

theorem FromRequests.erase (h : FromRequests opened clipNorm key clients sizes) (c : String) :
    FromRequests opened clipNorm key (clients.erase c) (sizes.erase c) := by
  intro x v hv
  by_cases hx : x = c
  · subst hx
    rw [AList.lookup_erase] at hv
    cases hv
  · rw [AList.lookup_erase_ne hx] at hv ⊢
    exact h x v hv

end

/-- So in every round of the buffer. -/
def PendingFrom (opened : SubmitWeightsRequest → List F → Prop) (clipNorm : F)
    (b : WeightBuffer F) : Prop :=
  ∀ key, FromRequests opened clipNorm key (submissions b key) (datasetSizes b key)

section
variable {opened : SubmitWeightsRequest → List F → Prop} {clipNorm : F} {b b' : WeightBuffer F}

theorem PendingFrom.congr (h : PendingFrom opened clipNorm b)
    (hweights : b'.roundWeights = b.roundWeights)
    (hsizes : b'.roundDatasetSizes = b.roundDatasetSizes) : PendingFrom opened clipNorm b' := by
  intro key
  unfold submissions datasetSizes
  rw [hweights, hsizes]
  exact h key

theorem PendingFrom.inserted (h : PendingFrom opened clipNorm b) {q : SubmitWeightsRequest}
    {raw : List F} (hq : opened q raw) (cfg : Config F)
    (job : Option PersistedTrainingJobRecord) :
    PendingFrom opened clipNorm (insertSubmission b clipNorm (submission cfg q job raw)) := by
  intro key
  have hround : roundKey (submission cfg q job raw).tenantId (submission cfg q job raw).modelId
      (submission cfg q job raw).round = requestKey q := rfl
  have hsize : max 1 (submission cfg q job raw).datasetSize = max 1 q.localDatasetSize := by
    show max 1 (max 1 q.localDatasetSize) = _
    omega
  rw [submissions_insertSubmission, datasetSizes_insertSubmission, hround, hsize]
  by_cases hkey : key = requestKey q
  · rw [if_pos hkey, if_pos hkey]
    exact (h key).insert hq hkey.symm
  · rw [if_neg hkey, if_neg hkey]
    exact h key

theorem PendingFrom.removed (h : PendingFrom opened clipNorm b)
    (key clientId : String) :
    PendingFrom opened clipNorm (removeSubmissionLocked b key clientId) := by
  intro key'
  rw [submissions_removeSubmissionLocked, datasetSizes_removeSubmissionLocked]
  by_cases hkey : key' = key
  · rw [if_pos hkey, if_pos hkey]
    exact (h key').erase clientId
  · rw [if_neg hkey, if_neg hkey]
    exact h key'

theorem PendingFrom.added {P : Primitives} {cfg : Config F} {e : CryptoEngine}
    {files : CheckpointFiles} (h : PendingFrom opened cfg.clipNorm b) {q : SubmitWeightsRequest}
    {raw : List F} (hq : opened q raw) (job : Option PersistedTrainingJobRecord) (draw : Draw F) :
    PendingFrom opened cfg.clipNorm (addWeight P cfg.toAggregationConfig e files b
      (submission cfg q job raw) draw).1 := by
  have hinserted := h.inserted hq cfg job
  have hcomputed : PendingFrom opened cfg.clipNorm (computeAggregate (insertSubmission b
      cfg.clipNorm (submission cfg q job raw)) cfg.toAggregationConfig (submission cfg q job raw)
      draw.noise draw.overflow).1 := by
    obtain ⟨velocity, hvelocity⟩ := computeAggregate_velocity (insertSubmission b cfg.clipNorm
      (submission cfg q job raw)) cfg.toAggregationConfig (submission cfg q job raw)
      draw.noise draw.overflow
    rw [hvelocity]
    exact hinserted.congr rfl rfl
  unfold addWeight
  dsimp only
  split
  · exact h
  split
  · exact hinserted
  split
  · exact hinserted.removed _ _
  · unfold persist
    cases draw.persistence with
    | written => exact hcomputed
    | cannotOpen => exact hcomputed.removed _ _
    | shortWrite => exact hcomputed.removed _ _
    | threw what => exact hcomputed.removed _ _

end

theorem PendingFrom.mono {opened opened' : SubmitWeightsRequest → List F → Prop}
    {clipNorm : F} {b : WeightBuffer F} (h : PendingFrom opened clipNorm b)
    (hopened : ∀ q raw, opened q raw → opened' q raw) : PendingFrom opened' clipNorm b :=
  fun key => (h key).mono hopened

/-- The weights with which a handler is on its way to the buffer. -/
def weightsAt : SubmitPoint F → Option (List F)
  | .updateClient _ weights => some weights
  | .recordSubmission _ weights => some weights
  | .add _ weights => some weights
  | _ => none

omit [FloatArith F] in
theorem weightsAt_afterAttempt (cfg : Config F) (job : Option PersistedTrainingJobRecord)
    (result : AggregationAttemptResult) :
    weightsAt (afterAttempt cfg job result) = none := by
  rcases afterAttempt_cases cfg job result with ⟨j, -, -, h⟩ | ⟨-, -, h⟩ | ⟨-, h⟩
  · rw [h]
    rfl
  · rw [h]
    rfl
  · rw [h]
    rfl

theorem next_weights {w : World F} {q : SubmitWeightsRequest} {peer : Peer} {o : Oracle F}
    {p p' : SubmitPoint F} {raw : List F} (h : (stepSubmitWeights d w q peer o p).2 = .inl p')
    (hraw : weightsAt p' = some raw) :
    weightsAt p = some raw ∨
      ∃ job, p = .decrypt job ∧ decryptSubmission d.primitives w.crypto q peer = .ok raw := by
  have hnone : weightsAt p' ≠ none := by
    rw [hraw]
    exact Option.some_ne_none raw
  cases p with
  | decrypt job =>
    simp only [stepSubmitWeights] at h
    cases hopens : decryptSubmission (F := F) d.primitives w.crypto q peer with
    | error message =>
      rw [hopens] at h
      obtain rfl := Sum.inl.inj h
      exact absurd rfl hnone
    | ok weights =>
      rw [hopens] at h
      obtain rfl := Sum.inl.inj h
      right
      exact ⟨job, rfl, congrArg Except.ok (Option.some.inj hraw)⟩
  | updateClient job weights =>
    obtain rfl := Sum.inl.inj h
    exact .inl hraw
  | recordSubmission job weights =>
    obtain rfl := Sum.inl.inj h
    exact .inl hraw
  | add job weights =>
    simp only [stepSubmitWeights, Sum.inl.injEq] at h
    subst h
    split at hraw
    · rw [weightsAt_afterAttempt] at hraw
      cases hraw
    · cases hraw
  | publish job p v =>
    obtain rfl := Sum.inl.inj h
    exact absurd (weightsAt_afterAttempt d.config job _) hnone
  | activeJob current =>
    simp only [stepSubmitWeights] at h
    split at h
    · obtain rfl := Sum.inl.inj h
      exact absurd rfl hnone
    · obtain rfl := Sum.inl.inj h
      exact absurd rfl hnone
  | modelVersion =>
    obtain rfl := Sum.inl.inj h
    split at hraw
    · cases hraw
    · cases hraw
  | validate current job =>
    obtain rfl := Sum.inl.inj h
    split at hraw
    · cases hraw
    · cases hraw
  | roundCheck current job =>
    obtain rfl := Sum.inl.inj h
    split at hraw
    · cases hraw
    · cases hraw
  | duplicateCheck current job =>
    obtain rfl := Sum.inl.inj h
    split at hraw
    · cases hraw
    · cases hraw
  | keyVersion job p =>
    obtain rfl := Sum.inl.inj h
    cases hraw
  | record job p v =>
    obtain rfl := Sum.inl.inj h
    cases hraw
  | accept job result =>
    obtain rfl := Sum.inl.inj h
    split at hraw
    · cases hraw
    · split at hraw
      · cases hraw
      · cases hraw
  | advance job result =>
    obtain rfl := Sum.inl.inj h
    cases hraw
  | respond response countClients => cases h

/-- What a run keeps about the vectors in its last state. -/
structure Sourced (d : Deployment F) (start : Start) (ok : Server F → Action F → Prop)
    (s : Server F) : Prop where
  reached : Reaches (step d) ok (initial d start) s
  passed : HandlersPassed s
  point : ∀ c raw, submitting s = some c → weightsAt c.point = some raw →
    Opened d start ok s c.q raw
  pending : PendingFrom (Opened d start ok s) d.config.clipNorm s.world.buffer

theorem initial_sourced (d : Deployment F) (start : Start) (ok : Server F → Action F → Prop) :
    Sourced d start ok (initial d start) where
  reached := .start
  passed := by
    intro c hc
    cases hc
  point := by
    intro c raw hc
    cases hc
  pending := by
    intro key c v hv
    cases hv

theorem proceed_buffer {c : Submitting F} {o : Oracle F} (h : Sourced d start ok s)
    (hc : submitting s = some c) : PendingFrom (Opened d start ok s) d.config.clipNorm
      (proceedSubmit d s c.q c.peer c.serial o c.point).world.buffer := by
  rcases stepSubmitWeights_buffer (d := d) s.world c.q c.peer o c.point with
    ⟨job, weights, hpoint⟩ | ⟨job, p, v, hpoint⟩ | hsame
  · have hopened := h.point c weights hc (by rw [hpoint]; rfl)
    rw [hpoint]
    exact h.pending.added hopened job o.draw
  · rw [hpoint]
    exact h.pending.congr rfl rfl
  · show PendingFrom _ _ (stepSubmitWeights d s.world c.q c.peer o c.point).1.buffer
    rw [hsame]
    exact h.pending

theorem step_sourced (h : Sourced d start ok s) (ha : ok s a) (hs : step d s a = some s') :
    Sourced d start ok s' := by
  have hgrows : ∀ q raw, Opened d start ok s q raw → Opened d start ok s' q raw :=
    fun q raw hopened => hopened.step ha hs
  have hreached := h.reached.next ha hs
  have hpassed := step_handlersPassed h.passed hs
  cases step_bufferStep hs with
  | kept hbuffer hsubmitting hrecorded =>
    refine ⟨hreached, hpassed, ?_, ?_⟩
    · intro c raw hc hraw
      rw [hsubmitting] at hc
      exact hgrows _ _ (h.point c raw hc hraw)
    · rw [hbuffer]
      exact h.pending.mono hgrows
  | @submit q peer hidle =>
    refine ⟨hreached, hpassed, ?_, h.pending.mono hgrows⟩
    intro c raw hc hraw
    rw [submitting_startSubmit] at hc
    obtain rfl := Option.some.inj hc
    rcases startSubmitWeights_cases s.world.registry q peer with hp | ⟨message, hp⟩
    · rw [hp] at hraw
      cases hraw
    · rw [hp] at hraw
      cases hraw
  | @proceed c o hc =>
    refine ⟨hreached, hpassed, ?_, (proceed_buffer h hc).mono hgrows⟩
    intro c' raw hc' hraw
    obtain ⟨p, hnext, rfl⟩ := submitting_proceed.mp hc'
    rcases next_weights hnext hraw with hold | ⟨job, hpoint, hopens⟩
    · exact hgrows _ _ (h.point c raw hc hold)
    · have hidentity : Passed s c.q c.peer := h.passed c hc (by rw [hpoint]; simp [stage])
      exact ⟨s, h.reached, Reaches.start.next ha hs, c, job, hc, rfl, hpoint, hopens, hidentity⟩
  | restored hcall hfree hbuffer hsubmitting hrecorded =>
    refine ⟨hreached, hpassed, ?_, ?_⟩
    · intro c raw hc hraw
      rw [hsubmitting] at hc
      exact hgrows _ _ (h.point c raw hc hraw)
    · rw [hbuffer]
      exact (h.pending.mono hgrows).congr rfl rfl
  | restart hrestart =>
    obtain ⟨hweights, -, hidle, -⟩ := restart_empty hrestart
    refine ⟨hreached, hpassed, ?_, ?_⟩
    · intro c raw hc
      rw [hidle] at hc
      cases hc
    · intro key c v hv
      unfold submissions at hv
      rw [hweights] at hv
      cases hv

end PqFl.PayloadSources
