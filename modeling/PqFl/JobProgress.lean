import PqFl.PendingSubmissions

/-!
# An active job is not stuck

A job is stuck when the buffer has already completed its current round: every
submission for it is then turned away and the job never advances. The rounds of
jobs start again at one, and the lease of a submission can run out after its
round was aggregated, so both have to be excluded for progress.
-/

set_option autoImplicit false

namespace PqFl.JobProgress
open PqFl.Identifiers PqFl.Timestamps PqFl.StoreRecords PqFl.StateStore PqFl.Crypto
open PqFl.Aggregation PqFl.Buffer PqFl.Services PqFl.Process PqFl.JobLedger PqFl.JobSteps
open PqFl.JobRuns PqFl.ListUpdate PqFl.Runs PqFl.Floats PqFl.Configuration PqFl.LeaseOwnership
open PqFl.SubmissionTracking PqFl.PendingSubmissions

variable {F : Type} {d : Deployment F} {s s' : Server F} {a : Action F}
variable {scopes : List (String × String)}

/-- The round is completed in the buffer, but the job has yet to advance. -/
def completing : SubmitPoint F → Bool
  | .accept _ result => result.aggregated
  | .advance _ _ => true
  | _ => false

/-- No round that the job will come to is completed in its scope. -/
def roundsOpen (s : Server F) (q : CreateTrainingJobRequest) : Bool :=
  (List.range (requestedJob q).targetRounds.toNat).all (fun i =>
    !isRoundCompleted s.world.buffer q.tenantId q.modelId ((i : ℤ) + 1))

/-- A submission which aggregated its round still has its lease. -/
def acceptsAlive (s : Server F) (now : ℕ) : Bool :=
  (submitting s).all (fun c => match c.point with
    | .accept _ result => !result.aggregated || liveLease s.world.store c.q now
    | _ => true)

def progresses (d : Deployment F) (scopes : List (String × String)) (s : Server F)
    (a : Action F) : Bool :=
  undisturbed d s a && staysIn d scopes s a && match a with
    | .createTrainingJob q peer _ => !createsJob d s q peer || roundsOpen s q
    | .proceed o => acceptsAlive s o.now
    | _ => true

/-- The rounds which active jobs will come to are open, except for one which a
submission has just completed. -/
def RoundsAhead (s : Server F) : Prop := ∀ j ∈ s.world.store.trainingJobs,
  isActiveJobStatus j.status = true → ∀ r, j.currentRound ≤ r → r ≤ j.targetRounds →
  roundKey j.tenantId j.modelId r ∈ s.world.buffer.completedRounds →
  ∃ c, submitting s = some c ∧ completing c.point = true ∧
    requestScope c.q = (j.tenantId, j.modelId) ∧ c.q.roundIndex = r

theorem RoundsAhead.move (h : RoundsAhead s) (hm : Move s.world.store s'.world.store)
    (hcompleted : s'.world.buffer.completedRounds = s.world.buffer.completedRounds)
    (hsubmit : ∀ c, submitting s = some c → completing c.point = true →
      ∃ c', submitting s' = some c' ∧ completing c'.point = true ∧ c'.q = c.q) :
    RoundsAhead s' := by
  intro j' hj' hactive r hcurrent htarget hkey
  obtain ⟨j, hj, hk⟩ := forall₂_of_mem hm.jobs hj'
  rw [hk.currentRound] at hcurrent
  rw [hk.targetRounds] at htarget
  rw [hk.tenantId, hk.modelId, hcompleted] at hkey
  obtain ⟨c, hc, hcompleting, hscope, hround⟩ := h j hj (hk.active hactive) r hcurrent htarget hkey
  obtain ⟨c', hc', hcompleting', hq⟩ := hsubmit c hc hcompleting
  rw [← hq] at hscope hround
  exact ⟨c', hc', hcompleting', by rw [hscope, hk.tenantId, hk.modelId], hround⟩

structure Progressing (scopes : List (String × String)) (s : Server F) : Prop where
  tracked : Tracked s
  scheduled : InFlight Scheduled s
  within : WithinScopes scopes s
  ahead : RoundsAhead s
  unrefused : ∀ job, .refusedCompleted (some job) ∉ s.events

theorem progresses_parts (h : progresses d scopes s a = true) :
    undisturbed d s a = true ∧ staysIn d scopes s a = true := by
  simp only [progresses, Bool.and_eq_true] at h
  exact h.1

theorem roundsOpen_iff (q : CreateTrainingJobRequest) : roundsOpen s q = true ↔
    ∀ r, 1 ≤ r → r ≤ (requestedJob q).targetRounds →
      roundKey q.tenantId q.modelId r ∉ s.world.buffer.completedRounds := by
  simp only [roundsOpen, List.all_eq_true, List.mem_range, Bool.not_eq_true', isRoundCompleted,
    decide_eq_false_iff_not]
  constructor
  · intro h r h1 htarget
    have hr := h (r - 1).toNat (by omega)
    rwa [show (((r - 1).toNat : ℤ) + 1) = r by omega] at hr
  · intro h i hi
    exact h _ (by omega) (by omega)

theorem create_roundsAhead (h : Progressing scopes s) {q : CreateTrainingJobRequest} {peer : Peer}
    {now : ℕ} (hcreates : createsJob d s q peer = true)
    (ha : progresses d scopes s (.createTrainingJob q peer now) = true) :
    RoundsAhead { s with
      world := s.world.after (createTrainingJob s.world.store (requestedJob q) now) } := by
  have hopen : roundsOpen s q = true := by
    simp only [progresses, hcreates, Bool.and_eq_true, Bool.not_true, Bool.false_or] at ha
    exact ha.2
  intro j hj hactive r hcurrent htarget hkey
  rcases create_cases hj hactive with rfl | ⟨hmem, -⟩
  · have hfirst : (1 : ℤ) ≤ r := hcurrent
    have hnot := (roundsOpen_iff q).mp hopen r hfirst htarget
    have hkey' : roundKey (normalizeTenant q.tenantId) (normalizeModel q.modelId) r ∈
      s.world.buffer.completedRounds := hkey
    rw [roundKey_normalize] at hkey'
    exact absurd hkey' hnot
  · exact h.ahead j hmem hactive r hcurrent htarget hkey

theorem roundCheck_open (h : Progressing scopes s) {c : Submitting F} {current : ℤ}
    {job : PersistedTrainingJobRecord} (hc : submitting s = some c)
    (hpoint : c.point = .roundCheck current (some job)) :
    requestKey c.q ∉ s.world.buffer.completedRounds := by
  intro hkey
  have hread : readJob c.point = some (some job) := by rw [hpoint]; rfl
  obtain ⟨active, hactive, -, hof⟩ := h.tracked.inFlight.active hc hread
  have hround := (hof (by rw [hpoint]; rfl)).round
  obtain ⟨hmem, ht, hm, hstatus⟩ := getActive_mem hactive
  have hcount := h.tracked.ledger.store.counted active hmem hstatus
  have hleft := h.tracked.ledger.order.store.2 active hmem hstatus
  rw [normalizeTenant_idem] at ht
  rw [normalizeModel_idem] at hm
  have hkey' : roundKey active.tenantId active.modelId active.currentRound ∈
      s.world.buffer.completedRounds := by
    rw [ht, hm, ← hround]
    exact hkey
  obtain ⟨c', hc', hcompleting, -⟩ := h.ahead active hmem hstatus _ le_rfl (by omega) hkey'
  obtain rfl := Option.some.inj (hc.symm.trans hc')
  rw [hpoint] at hcompleting
  cases hcompleting

theorem initial_progressing (d : Deployment F) (scopes : List (String × String)) (start : Start) :
    Progressing scopes (initial d start) where
  tracked := initial_tracked d start
  scheduled := by
    intro c job hc
    cases hc
  within := initial_withinScopes d scopes start
  ahead := by
    intro j hj
    cases hj
  unrefused := by
    intro job he
    cases he

variable [FloatArith F]

theorem publish_roundsAhead (hsep : Separated scopes) (htracked : Tracked s)
    (hscopes : WithinScopes scopes s) (h : RoundsAhead s) {c : Submitting F} {o : Oracle F}
    {job : Option PersistedTrainingJobRecord} {pr : Prepared F} {v : ℤ}
    (hc : submitting s = some c) (hpoint : c.point = .publish job pr v) :
    RoundsAhead (proceedSubmit d s c.q c.peer c.serial o c.point) := by
  have hread : readJob c.point = some job := by rw [hpoint]; rfl
  have hsame := (htracked.inFlight c job hc hread).1
  rw [hpoint]
  intro j hj hactive r hcurrent htarget hkey
  have hkey' : roundKey j.tenantId j.modelId r ∈
      insert (requestKey c.q) s.world.buffer.completedRounds := by
    simpa [proceedSubmit, stepSubmitWeights, Buffer.publish, submission, requestKey] using hkey
  rcases Finset.mem_insert.mp hkey' with heq | hold
  · obtain ⟨hscope, hround⟩ := requestKey_inj hsep (hscopes.submission c hc)
      (hscopes.store j hj) heq
    have hfound := activeJob_of_scope htracked.ledger.order.store.1 hj hactive hscope
    rw [hfound] at hsame
    cases job with
    | none => cases hsame
    | some read =>
      let result := (Buffer.publish s.world.buffer (submission d.config c.q (some read) ([] : List F))
        pr.result v).2
      refine ⟨⟨c.q, c.peer, c.serial, .accept read result⟩, ?_, rfl, hscope, hround.symm⟩
      rfl
  · obtain ⟨c', hc', hcompleting, -⟩ := h j hj hactive r hcurrent htarget hold
    obtain rfl := Option.some.inj (hc.symm.trans hc')
    rw [hpoint] at hcompleting
    cases hcompleting

theorem advance_roundsAhead (htracked : Tracked s) (h : RoundsAhead s) {c : Submitting F}
    {o : Oracle F} {job : PersistedTrainingJobRecord} {result : AggregationAttemptResult}
    (hc : submitting s = some c) (hpoint : c.point = .advance job result)
    (hafter : Tracked (proceedSubmit d s c.q c.peer c.serial o c.point)) :
    RoundsAhead (proceedSubmit d s c.q c.peer c.serial o c.point) := by
  have hread : readJob c.point = some (some job) := by rw [hpoint]; rfl
  obtain ⟨active, hactive, -, hof⟩ := htracked.inFlight.active hc hread
  have hround := (hof (by rw [hpoint]; rfl)).round
  rw [hpoint] at hafter ⊢
  intro j hj hstatus r hcurrent htarget hkey
  have hmem := getActive_mem hactive
  -- the active job is replaced, so every other active job is of another scope
  rcases advance_cases hactive hj with hold | ⟨-, rfl⟩
  · obtain ⟨c', hc', -, hscope, -⟩ := h j hold hstatus r hcurrent htarget hkey
    obtain rfl := Option.some.inj (hc.symm.trans hc')
    have hfound := activeJob_of_scope htracked.ledger.order.store.1 hold hstatus hscope
    obtain rfl := Option.some.inj (hfound.symm.trans hactive)
    have hmoved := hafter.ledger.store.sameJob hj
      (advance_mem hactive c.q.roundIndex result.modelVersion o.now) rfl
    have hnext : j.currentRound = c.q.roundIndex + 1 := congrArg (·.currentRound) hmoved
    omega
  · have hcurrent' : c.q.roundIndex + 1 ≤ r := hcurrent
    obtain ⟨c', hc', -, -, hr⟩ := h active hmem.1 hmem.2.2.2 r (by omega) htarget hkey
    obtain rfl := Option.some.inj (hc.symm.trans hc')
    omega

theorem accept_next {c : Submitting F} {o : Oracle F} {job : PersistedTrainingJobRecord}
    {result : AggregationAttemptResult} (hpoint : c.point = .accept job result)
    (hagg : result.aggregated = true) (hok : (acceptance s.world.store c.q o.now).value = .ok ()) :
    submitting (proceedSubmit d s c.q c.peer c.serial o c.point) =
      some { c with point := .advance job result } := by
  apply submitting_proceed.mpr
  refine ⟨.advance job result, ?_, rfl⟩
  rw [acceptance] at hok
  rw [hpoint]
  simp only [stepSubmitWeights, hok, hagg, if_true]

theorem accept_roundsAhead (htracked : Tracked s) (hscheduled : InFlight Scheduled s)
    (h : RoundsAhead s) {c : Submitting F} {o : Oracle F} {job : PersistedTrainingJobRecord}
    {result : AggregationAttemptResult} (hc : submitting s = some c)
    (hpoint : c.point = .accept job result) (ha : acceptsAlive s o.now = true) :
    RoundsAhead (proceedSubmit d s c.q c.peer c.serial o c.point) := by
  have hstore : (proceedSubmit d s c.q c.peer c.serial o c.point).world.store =
      (acceptance s.world.store c.q o.now).store := by
    rw [hpoint]
    rfl
  apply h.move
  · rw [hstore]
    exact accept_move _ _ _ _ _ _ _ _ _
  · rw [hpoint]
    rfl
  · intro c' hc' hcompleting
    obtain rfl := Option.some.inj (hc.symm.trans hc')
    have hagg : result.aggregated = true := by simpa [hpoint, completing] using hcompleting
    have hread : readJob c.point = some (some job) := by rw [hpoint]; rfl
    have hlive : liveLease s.world.store c.q o.now = true := by
      simpa [acceptsAlive, hc, hpoint, hagg] using ha
    obtain ⟨active, hactive, -, hof⟩ := htracked.inFlight.active hc hread
    obtain ⟨-, hchecked⟩ := hscheduled c _ hc hread rfl
    have hok := acceptance_of_liveLease hactive (hof (by rw [hpoint]; rfl)).jobId
      (hchecked (by rw [hpoint]; rfl)) hlive
    exact ⟨_, accept_next hpoint hagg hok, rfl, rfl⟩

theorem proceed_roundsAhead (hsep : Separated scopes) (h : Progressing scopes s)
    {c : Submitting F} {o : Oracle F} (hc : submitting s = some c)
    (ha : acceptsAlive s o.now = true)
    (hafter : Tracked (proceedSubmit d s c.q c.peer c.serial o c.point)) :
    RoundsAhead (proceedSubmit d s c.q c.peer c.serial o c.point) := by
  have hother : stage c.point ≠ 11 → completing c.point = false →
      RoundsAhead (proceedSubmit d s c.q c.peer c.serial o c.point) := by
    intro hpublish hnot
    cases proceedSubmit_storeStep (d := d) hc o with
    | moved hm _ =>
      apply h.ahead.move hm (completedRounds_of_stage hpublish)
      intro c' hc' hcompleting
      obtain rfl := Option.some.inj (hc.symm.trans hc')
      rw [hnot] at hcompleting
      cases hcompleting
    | advanced hc' hpoint _ _ =>
      obtain rfl := Option.some.inj (hc.symm.trans hc')
      rw [hpoint] at hnot
      cases hnot
  cases hpoint : c.point with
  | publish job pr v =>
    rw [← hpoint]
    exact publish_roundsAhead hsep h.tracked h.within h.ahead hc hpoint
  | accept job result =>
    rw [← hpoint]
    exact accept_roundsAhead h.tracked h.scheduled h.ahead hc hpoint ha
  | advance job result =>
    rw [← hpoint]
    exact advance_roundsAhead h.tracked h.ahead hc hpoint hafter
  | _ =>
    rw [← hpoint]
    apply hother
    · simp [hpoint, stage]
    · rw [hpoint]
      rfl

theorem step_roundsAhead (hsep : Separated scopes) (h : Progressing scopes s)
    (ha : progresses d scopes s a = true) (hs : step d s a = some s') (hafter : Tracked s') :
    RoundsAhead s' := by
  cases step_jobStep hs with
  | moved hm _ hsame _ hsubmit =>
    apply h.ahead.move hm hsame.completedRounds
    intro c hc hcompleting
    exact ⟨c, by rw [hsubmit]; exact hc, hcompleting, rfl⟩
  | create hcreates => exact create_roundsAhead h hcreates ha
  | submit hidle =>
    refine h.ahead.move (.of_jobRecords rfl) rfl ?_
    intro c hc
    rw [submitting_none hidle] at hc
    cases hc
  | @proceed c o hc =>
    have halive : acceptsAlive s o.now = true := by
      simp only [progresses, Bool.and_eq_true] at ha
      exact ha.2
    exact proceed_roundsAhead hsep h hc halive hafter
  | restart hrestart =>
    intro j hj hactive r hcurrent htarget hkey
    rw [(restart_empty hrestart).2.1] at hkey
    exact absurd hkey (Finset.notMem_empty _)

theorem step_progressing (hsep : Separated scopes) (h : Progressing scopes s)
    (ha : progresses d scopes s a = true) (hs : step d s a = some s') : Progressing scopes s' := by
  obtain ⟨hundisturbed, hstays⟩ := progresses_parts ha
  have htracked := step_tracked h.tracked hundisturbed hs
  refine ⟨htracked, step_scheduled h.tracked.ledger.order h.scheduled hs,
    step_withinScopes h.tracked.ledger.order h.within hstays hs,
    step_roundsAhead hsep h ha hs htracked, ?_⟩
  intro job hrefused
  rcases step_events hs hrefused with hold | hnew
  · exact h.unrefused job hold
  · cases hnew with
    | restored he => cases he
    | passed he => cases he
    | @observed c o _ hc he =>
      cases hpoint : c.point with
      | roundCheck current read =>
        rw [hpoint] at he
        cases read with
        | none => cases he
        | some read =>
          cases he with
          | refusedCompleted hkey => exact roundCheck_open h hc hpoint hkey
      | _ =>
        rw [hpoint] at he
        cases he

/-- In a run of the condition no scheduled submission is refused for a completed
round, and between requests the current round of an active job is open. -/
theorem active_round_open (hsep : Separated scopes) {start : Start}
    (h : Reaches (step d) (fun s a => progresses d scopes s a = true) (initial d start) s) :
    (Quiet s → ∀ t m job, getActiveTrainingJob s.world.store t m = some job →
      isRoundCompleted s.world.buffer t m job.currentRound = false) ∧
    ∀ job, .refusedCompleted (some job) ∉ s.events := by
  have hprogress : Progressing scopes s := h.invariant (initial_progressing d scopes start)
    (fun _ _ _ hi ha hs => step_progressing hsep hi ha hs)
  refine ⟨?_, hprogress.unrefused⟩
  intro hquiet t m job hjob
  obtain ⟨hmem, ht, hm, hstatus⟩ := getActive_mem hjob
  have hcount := hprogress.tracked.ledger.store.counted job hmem hstatus
  have hleft := hprogress.tracked.ledger.order.store.2 job hmem hstatus
  simp only [isRoundCompleted, decide_eq_false_iff_not]
  intro hkey
  have hkey' : roundKey job.tenantId job.modelId job.currentRound ∈
      s.world.buffer.completedRounds := by
    rw [ht, hm, roundKey_normalize]
    exact hkey
  obtain ⟨c, hc, -⟩ := hprogress.ahead job hmem hstatus _ le_rfl (by omega) hkey'
  rw [submitting_none hquiet.1] at hc
  cases hc

/-- A first round that advanced its job. -/
def advancedServer : Server Binary32 :=
  (execTested (step standardDeployment) (progresses standardDeployment [("t", "m")])
    (acceptedRun ++ proceeds 2 3) (initial standardDeployment firstStart)).get (by decide +kernel)

theorem active_round_open_advancedServer :
    ∃ job, getActiveTrainingJob advancedServer.world.store "t" "m" = some job ∧
      job.currentRound = 2 ∧ isRoundCompleted advancedServer.world.buffer "t" "m" job.currentRound =
        false := by
  have hreach : Reaches (step standardDeployment) (fun s a => progresses standardDeployment
      [("t", "m")] s a = true) (initial standardDeployment firstStart) advancedServer :=
    execTested_reaches _ (fun _ _ h => h) _ (Option.some_get _).symm
  have hopen := (active_round_open (show Separated [("t", "m")] by decide) hreach).1
    (quiet_of_isQuiet (by decide +kernel)) "t" "m"
  have hround : (getActiveTrainingJob advancedServer.world.store "t" "m").map (·.currentRound) =
      some 2 := by decide +kernel
  obtain ⟨job, hjob, hcurrent⟩ := Option.map_eq_some_iff.mp hround
  exact ⟨job, hjob, hcurrent, hopen job hjob⟩

def restartedJobServer : Server Binary32 :=
  (exec (step standardDeployment) (acceptedRun ++ proceeds 2 3 ++ [creatingJob 3 1 4])
    (initial standardDeployment firstStart)).get (by decide +kernel)

/-- The first round of the second job was completed under the first job. -/
theorem second_job_stuck :
    ¬ ∀ s, Reaches (step standardDeployment) Free (initial standardDeployment firstStart) s →
      Quiet s → ∀ t m job, getActiveTrainingJob s.world.store t m = some job →
        isRoundCompleted s.world.buffer t m job.currentRound = false := by
  intro hall
  have hreach : Reaches (step standardDeployment) Free (initial standardDeployment firstStart)
      restartedJobServer := exec_reaches _ (Option.some_get _).symm
  have hstuck : (getActiveTrainingJob restartedJobServer.world.store "t" "m").map (fun job =>
      isRoundCompleted restartedJobServer.world.buffer "t" "m" job.currentRound) = some true := by
    decide +kernel
  obtain ⟨job, hjob, hcompleted⟩ := Option.map_eq_some_iff.mp hstuck
  have hopen := hall _ hreach (quiet_of_isQuiet (by decide +kernel)) "t" "m" job hjob
  rw [hopen] at hcompleted
  cases hcompleted

end PqFl.JobProgress
