import PqFl.SubmissionTracking

/-!
# Pending submissions over a run

A submission is added to the buffer in one step of its handler. Up to that step
its round stays open and its client stays absent from the round, whatever other
handlers do meanwhile.
-/

set_option autoImplicit false

namespace PqFl.PendingSubmissions
open PqFl.Identifiers PqFl.Timestamps PqFl.StoreRecords PqFl.StateStore PqFl.Crypto
open PqFl.Aggregation PqFl.Buffer PqFl.Services PqFl.Process PqFl.JobLedger PqFl.JobSteps
open PqFl.JobRuns PqFl.ListUpdate PqFl.Runs PqFl.SubmissionTracking

variable {F : Type} {d : Deployment F} {s s' : Server F} {a : Action F}

/-- How far a submission has come. -/
def stage : SubmitPoint F → ℕ
  | .modelVersion => 0
  | .activeJob _ => 1
  | .validate _ _ => 2
  | .roundCheck _ _ => 3
  | .duplicateCheck _ _ => 4
  | .decrypt _ => 5
  | .updateClient _ _ => 6
  | .recordSubmission _ _ => 7
  | .add _ _ => 8
  | .keyVersion _ _ => 9
  | .record _ _ _ => 10
  | .publish _ _ _ => 11
  | .accept _ _ => 12
  | .advance _ _ => 13
  | .respond _ _ => 14

theorem afterAttempt_stage (cfg : Config F) (job : Option PersistedTrainingJobRecord)
    (result : AggregationAttemptResult) :
    stage (afterAttempt cfg job result) = 12 ∨ stage (afterAttempt cfg job result) = 14 := by
  rcases afterAttempt_cases cfg job result with ⟨j, -, -, h⟩ | ⟨-, -, h⟩ | ⟨-, h⟩
  · exact .inl (by rw [h]; rfl)
  · exact .inr (by rw [h]; rfl)
  · exact .inr (by rw [h]; rfl)

/-- The round of a submission is open from its check to the publication, and the
client is absent from the round from its check to the addition. -/
structure Reserved (s : Server F) : Prop where
  openRound : ∀ c, submitting s = some c → 4 ≤ stage c.point → stage c.point ≤ 11 →
    requestKey c.q ∉ s.world.buffer.completedRounds
  absent : ∀ c, submitting s = some c → 5 ≤ stage c.point → stage c.point ≤ 8 →
    (submissions s.world.buffer (requestKey c.q)).lookup c.q.clientId = none

theorem initial_reserved (d : Deployment F) (start : Start) : Reserved (initial d start) where
  openRound := by
    intro c hc
    cases hc
  absent := by
    intro c hc
    cases hc

theorem startSubmit_stage {q : SubmitWeightsRequest} {peer : Peer} {c : Submitting F}
    (hc : submitting (startSubmit s q peer) = some c) : stage c.point = 0 ∨ stage c.point = 14 := by
  rw [submitting_startSubmit] at hc
  obtain rfl := Option.some.inj hc
  rcases startSubmitWeights_cases s.world.registry q peer with hp | ⟨message, hp⟩
  · exact .inl (by rw [hp]; rfl)
  · exact .inr (by rw [hp]; rfl)

variable [FloatArith F]

/-- A submission goes on by one stage, or it answers; it skips the check of the
lease without a job, and the aggregation while the round waits. -/
theorem next_stage {w : World F} {q : SubmitWeightsRequest} {peer : Peer} {o : Oracle F}
    {p p' : SubmitPoint F} (h : (stepSubmitWeights d w q peer o p).2 = .inl p') :
    stage p' = stage p + 1 ∨ stage p' = 14 ∨ (stage p = 1 ∧ stage p' = 3) ∨
      (stage p = 8 ∧ stage p' = 12) := by
  cases p with
  | modelVersion =>
    obtain rfl := Sum.inl.inj h
    split
    · exact .inr (.inl rfl)
    · exact .inl rfl
  | activeJob current =>
    simp only [stepSubmitWeights] at h
    split at h
    · obtain rfl := Sum.inl.inj h
      exact .inr (.inr (.inl ⟨rfl, rfl⟩))
    · obtain rfl := Sum.inl.inj h
      exact .inl rfl
  | validate current job =>
    obtain rfl := Sum.inl.inj h
    split
    · exact .inr (.inl rfl)
    · exact .inl rfl
  | roundCheck current job =>
    obtain rfl := Sum.inl.inj h
    split
    · exact .inr (.inl rfl)
    · exact .inl rfl
  | duplicateCheck current job =>
    obtain rfl := Sum.inl.inj h
    split
    · exact .inr (.inl rfl)
    · exact .inl rfl
  | decrypt job =>
    simp only [stepSubmitWeights] at h
    split at h
    · obtain rfl := Sum.inl.inj h
      exact .inr (.inl rfl)
    · obtain rfl := Sum.inl.inj h
      exact .inl rfl
  | add job weights =>
    simp only [stepSubmitWeights, Sum.inl.injEq] at h
    subst h
    split
    · rcases afterAttempt_stage d.config job _ with h | h
      · exact .inr (.inr (.inr ⟨rfl, h⟩))
      · exact .inr (.inl h)
    · exact .inl rfl
  | publish job p modelVersion =>
    obtain rfl := Sum.inl.inj h
    exact (afterAttempt_stage d.config job _).imp id .inl
  | accept job result =>
    obtain rfl := Sum.inl.inj h
    split
    · exact .inr (.inl rfl)
    · split
      · exact .inl rfl
      · exact .inr (.inl rfl)
  | respond response countClients => cases h
  | _ =>
    obtain rfl := Sum.inl.inj h
    exact .inl rfl

theorem next_of_stage (d : Deployment F) (w : World F) (q : SubmitWeightsRequest) (peer : Peer)
    (o : Oracle F) {p : SubmitPoint F} (h : stage p ≠ 14) :
    ∃ p', (stepSubmitWeights d w q peer o p).2 = .inl p' := by
  cases p with
  | respond text countClients => exact absurd rfl h
  | activeJob current =>
    simp only [stepSubmitWeights]
    split
    · exact ⟨_, rfl⟩
    · exact ⟨_, rfl⟩
  | decrypt job =>
    simp only [stepSubmitWeights]
    split
    · exact ⟨_, rfl⟩
    · exact ⟨_, rfl⟩
  | _ => exact ⟨_, rfl⟩

theorem stage_roundCheck {w : World F} {q : SubmitWeightsRequest} {peer : Peer} {o : Oracle F}
    {p p' : SubmitPoint F} (h : (stepSubmitWeights d w q peer o p).2 = .inl p')
    (hp : stage p = 3) (hp' : stage p' = 4) : requestKey q ∉ w.buffer.completedRounds := by
  cases p with
  | roundCheck current job =>
    obtain rfl := Sum.inl.inj h
    split at hp'
    · cases hp'
    · rename_i hopen
      simpa [isRoundCompleted, requestKey] using hopen
  | _ => cases hp

theorem stage_duplicateCheck {w : World F} {q : SubmitWeightsRequest} {peer : Peer} {o : Oracle F}
    {p p' : SubmitPoint F} (h : (stepSubmitWeights d w q peer o p).2 = .inl p')
    (hp : stage p = 4) (hp' : stage p' = 5) :
    (submissions w.buffer (requestKey q)).lookup q.clientId = none := by
  cases p with
  | duplicateCheck current job =>
    obtain rfl := Sum.inl.inj h
    split at hp'
    · cases hp'
    · rename_i habsent
      rw [hasClientSubmission_eq] at habsent
      simpa [requestKey] using habsent
  | _ => cases hp

theorem buffer_of_stage {w : World F} {q : SubmitWeightsRequest} {peer : Peer} {o : Oracle F}
    {p : SubmitPoint F} (hadd : stage p ≠ 8) (hpublish : stage p ≠ 11) :
    (stepSubmitWeights d w q peer o p).1.buffer = w.buffer := by
  rcases stepSubmitWeights_buffer (d := d) w q peer o p with
    ⟨job, weights, rfl⟩ | ⟨job, pr, v, rfl⟩ | hsame
  · exact absurd rfl hadd
  · exact absurd rfl hpublish
  · exact hsame

theorem completedRounds_of_stage {w : World F} {q : SubmitWeightsRequest} {peer : Peer}
    {o : Oracle F} {p : SubmitPoint F} (hpublish : stage p ≠ 11) :
    (stepSubmitWeights d w q peer o p).1.buffer.completedRounds = w.buffer.completedRounds := by
  rcases stepSubmitWeights_buffer (d := d) w q peer o p with
    ⟨job, weights, rfl⟩ | ⟨job, pr, v, rfl⟩ | hsame
  · exact (addWeight_added _ _ _ _ _ _ _).sameBut.completed
  · exact absurd rfl hpublish
  · rw [hsame]

theorem step_reserved (h : Reserved s) (hs : step d s a = some s') : Reserved s' := by
  cases step_jobStep hs with
  | moved _ _ hsame _ hsubmit =>
    refine ⟨fun c hc hfrom hto => ?_, fun c hc hfrom hto => ?_⟩
    · rw [hsubmit] at hc
      rw [hsame.completedRounds]
      exact h.openRound c hc hfrom hto
    · rw [hsubmit] at hc
      rw [submissions, hsame.roundWeights]
      exact h.absent c hc hfrom hto
  | create _ => exact ⟨h.openRound, h.absent⟩
  | submit _ =>
    refine ⟨fun c hc hfrom hto => ?_, fun c hc hfrom hto => ?_⟩
    · rcases startSubmit_stage hc with hp | hp <;> omega
    · rcases startSubmit_stage hc with hp | hp <;> omega
  | @proceed c o hc =>
    refine ⟨fun c' hc' hfrom hto => ?_, fun c' hc' hfrom hto => ?_⟩
    · obtain ⟨p, hnext, rfl⟩ := submitting_proceed.mp hc'
      dsimp only at hfrom hto ⊢
      have hstage := next_stage hnext
      show requestKey c.q ∉ (stepSubmitWeights d s.world c.q c.peer o c.point).1.buffer.completedRounds
      rw [completedRounds_of_stage (by omega)]
      by_cases hcheck : stage c.point = 3
      · exact stage_roundCheck hnext hcheck (by omega)
      · exact h.openRound c hc (by omega) (by omega)
    · obtain ⟨p, hnext, rfl⟩ := submitting_proceed.mp hc'
      dsimp only at hfrom hto ⊢
      have hstage := next_stage hnext
      show (submissions (stepSubmitWeights d s.world c.q c.peer o c.point).1.buffer _).lookup _ = none
      rw [buffer_of_stage (by omega) (by omega)]
      by_cases hcheck : stage c.point = 4
      · exact stage_duplicateCheck hnext hcheck (by omega)
      · exact h.absent c hc (by omega) (by omega)
  | restart hrestart =>
    have hnone := (restart_empty hrestart).2.2.1
    refine ⟨fun c hc => ?_, fun c hc => ?_⟩
    · rw [hnone] at hc
      cases hc
    · rw [hnone] at hc
      cases hc

end PqFl.PendingSubmissions
