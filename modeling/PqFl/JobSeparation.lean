import PqFl.PendingSubmissions

/-!
# Aggregates do not mix jobs

Pending submissions are kept by scope and round number. They outlive the job
for which they were made, so a later job can only be kept apart from them by
not creating it while there are any.
-/

set_option autoImplicit false

namespace PqFl.JobSeparation
open PqFl.Identifiers PqFl.Timestamps PqFl.StoreRecords PqFl.StateStore PqFl.Crypto
open PqFl.Aggregation PqFl.Buffer PqFl.Services PqFl.Process PqFl.JobLedger PqFl.JobSteps
open PqFl.JobRuns PqFl.ListUpdate PqFl.Runs PqFl.Floats PqFl.Configuration PqFl.LeaseOwnership
open PqFl.SubmissionTracking PqFl.PendingSubmissions

variable {F : Type} {d : Deployment F} {s s' : Server F} {a : Action F}
variable {scopes : List (String × String)}

/-- No open round that the job will come to has submissions in its scope. -/
def roundsEmpty (s : Server F) (q : CreateTrainingJobRequest) : Bool :=
  (List.range (requestedJob q).targetRounds.toNat).all (fun i =>
    isRoundCompleted s.world.buffer q.tenantId q.modelId ((i : ℤ) + 1) ||
      getNumClients s.world.buffer q.tenantId q.modelId ((i : ℤ) + 1) == 0)

def separates (d : Deployment F) (scopes : List (String × String)) (s : Server F)
    (a : Action F) : Bool :=
  undisturbed d s a && staysIn d scopes s a && match a with
    | .createTrainingJob q peer _ => !createsJob d s q peer || roundsEmpty s q
    | _ => true

/-- The submission came under a lease of this job. -/
def OfJob (jobId : String) (origin : Option Origin) : Prop :=
  ∃ o, origin = some o ∧ o.leaseJob = some jobId

/-- What is pending for the rounds to come of an active job is its own. -/
def PendingOwn (s : Server F) : Prop := ∀ j ∈ s.world.store.trainingJobs,
  isActiveJobStatus j.status = true → ∀ r, j.currentRound ≤ r → r ≤ j.targetRounds →
  roundKey j.tenantId j.modelId r ∉ s.world.buffer.completedRounds →
  ∀ x ∈ submissions s.world.buffer (roundKey j.tenantId j.modelId r),
    OfJob j.jobId (s.origin (roundKey j.tenantId j.modelId r) x)

theorem PendingOwn.move (h : PendingOwn s) (hm : Move s.world.store s'.world.store)
    (hsubmissions : s'.world.buffer.roundWeights = s.world.buffer.roundWeights)
    (hcompleted : s.world.buffer.completedRounds ⊆ s'.world.buffer.completedRounds)
    (horigin : s'.origin = s.origin) : PendingOwn s' := by
  intro j' hj' hactive r hcurrent htarget hopen x hx
  obtain ⟨j, hj, hk⟩ := forall₂_of_mem hm.jobs hj'
  rw [hk.currentRound] at hcurrent
  rw [hk.targetRounds] at htarget
  rw [hk.tenantId, hk.modelId] at hopen hx ⊢
  rw [submissions, hsubmissions] at hx
  rw [horigin, hk.jobId]
  exact h j hj (hk.active hactive) r hcurrent htarget (fun hc => hopen (hcompleted hc)) x hx

theorem roundsEmpty_iff (q : CreateTrainingJobRequest) : roundsEmpty s q = true ↔
    ∀ r, 1 ≤ r → r ≤ (requestedJob q).targetRounds →
      roundKey q.tenantId q.modelId r ∉ s.world.buffer.completedRounds →
      ∀ x, x ∉ submissions s.world.buffer (roundKey q.tenantId q.modelId r) := by
  have hempty : ∀ r, getNumClients s.world.buffer q.tenantId q.modelId r = 0 ↔
      ∀ x, x ∉ submissions s.world.buffer (roundKey q.tenantId q.modelId r) := by
    intro r
    rw [getNumClients_eq, List.length_eq_zero_iff]
    constructor
    · intro h x hx
      rw [AList.mem_keys, AList.keys, h] at hx
      cases hx
    · intro h
      rw [← List.map_eq_nil_iff (f := Sigma.fst), List.eq_nil_iff_forall_not_mem]
      exact h
  simp only [roundsEmpty, List.all_eq_true, List.mem_range, Bool.or_eq_true, isRoundCompleted,
    decide_eq_true_eq, beq_iff_eq, hempty]
  constructor
  · intro h r h1 htarget hopen
    have hr := h (r - 1).toNat (by omega)
    rw [show (((r - 1).toNat : ℤ) + 1) = r by omega] at hr
    exact hr.resolve_left hopen
  · intro h i hi
    by_cases hopen : roundKey q.tenantId q.modelId ((i : ℤ) + 1) ∈ s.world.buffer.completedRounds
    · exact .inl hopen
    · exact .inr (h _ (by omega) (by omega) hopen)

structure Separating (scopes : List (String × String)) (s : Server F) : Prop where
  tracked : Tracked s
  within : WithinScopes scopes s
  reserved : Reserved s
  own : PendingOwn s
  aggregates : ∀ t m r contributors n job,
    .aggregated t m r contributors n (some job) ∈ s.events → ∀ pair ∈ contributors, OfJob job pair.2
  duplicates : ∀ job origin, .refusedDuplicate (some job) origin ∈ s.events → OfJob job origin

theorem create_pendingOwn (h : PendingOwn s) {q : CreateTrainingJobRequest} {peer : Peer} {now : ℕ}
    (hcreates : createsJob d s q peer = true)
    (ha : separates d scopes s (.createTrainingJob q peer now) = true) :
    PendingOwn { s with
      world := s.world.after (createTrainingJob s.world.store (requestedJob q) now) } := by
  have hempty : roundsEmpty s q = true := by
    simp only [separates, hcreates, Bool.and_eq_true, Bool.not_true, Bool.false_or] at ha
    exact ha.2
  intro j hj hactive r hcurrent htarget hopen x hx
  rcases create_cases hj hactive with rfl | ⟨hmem, -⟩
  · have hfirst : (1 : ℤ) ≤ r := hcurrent
    have hkey : roundKey (createTrainingJob s.world.store (requestedJob q) now).value.tenantId
        (createTrainingJob s.world.store (requestedJob q) now).value.modelId r =
        roundKey q.tenantId q.modelId r := roundKey_normalize _ _ _
    rw [hkey] at hopen hx
    exact absurd hx ((roundsEmpty_iff q).mp hempty r hfirst htarget hopen x)
  · exact h j hmem hactive r hcurrent htarget hopen x hx

theorem current_pending (h : Separating scopes s) {c : Submitting F}
    (hc : submitting s = some c) {job : Option PersistedTrainingJobRecord}
    (hread : readJob c.point = some job) (hchecked : isChecked c.point = true)
    (hfrom : 4 ≤ stage c.point) (hto : stage c.point ≤ 11)
    {active : PersistedTrainingJobRecord} (hactive : activeJob s.world.store c.q = some active)
    {x : String} (hx : x ∈ submissions s.world.buffer (requestKey c.q)) :
    OfJob active.jobId (s.origin (requestKey c.q) x) := by
  have hround := ((h.tracked.inFlight c job hc hread).2 active hactive hchecked).round
  obtain ⟨hmem, ht, hm, hstatus⟩ := getActive_mem hactive
  rw [normalizeTenant_idem] at ht
  rw [normalizeModel_idem] at hm
  have hkey : roundKey active.tenantId active.modelId active.currentRound = requestKey c.q := by
    rw [ht, hm, ← hround]
    rfl
  have hcount := h.tracked.ledger.store.counted active hmem hstatus
  have hleft := h.tracked.ledger.order.store.2 active hmem hstatus
  have hown := h.own active hmem hstatus active.currentRound le_rfl (by omega)
  rw [hkey] at hown
  exact hown (h.reserved.openRound c hc hfrom hto) x hx

theorem added_aggregated (h : Separating scopes s) {t m : String} {r : ℤ}
    {contribs : List (String × Option Origin)} {n : ℕ} {job : String}
    (hadded : NewEvent s a (.aggregated t m r contribs n (some job))) :
    ∀ pair ∈ contribs, OfJob job pair.2 := by
  cases hadded with
  | restored he => cases he
  | passed he => cases he
  | @observed c o _ hc he =>
    generalize hjob : some job = activeId at he
    cases hpoint : c.point with
    | publish read pr v =>
      rw [hpoint] at he
      cases he with
      | aggregated =>
        obtain ⟨active, hactive, rfl⟩ := Option.map_eq_some_iff.mp hjob.symm
        intro pair hpair
        obtain ⟨x, hx, rfl⟩ := List.mem_map.mp hpair
        have hread : readJob c.point = some read := by rw [hpoint]; rfl
        exact current_pending h hc hread (by rw [hpoint]; rfl)
          (by simp [hpoint, stage]) (by simp [hpoint, stage]) hactive hx
    | _ =>
      rw [hpoint] at he
      cases he

theorem added_refusedDuplicate (h : Separating scopes s) {job : String} {origin : Option Origin}
    (hadded : NewEvent s a (.refusedDuplicate (some job) origin)) : OfJob job origin := by
  cases hadded with
  | restored he => cases he
  | passed he => cases he
  | @observed c o _ hc he =>
    generalize hjob : some job = readId at he
    cases hpoint : c.point with
    | duplicateCheck current read =>
      rw [hpoint] at he
      cases he with
      | refusedDuplicate hx =>
        obtain ⟨read, rfl, rfl⟩ := Option.map_eq_some_iff.mp hjob.symm
        have hread : readJob c.point = some (some read) := by rw [hpoint]; rfl
        obtain ⟨active, hactive, hid, -⟩ := h.tracked.inFlight.active hc hread
        rw [← hid]
        exact current_pending h hc hread (by rw [hpoint]; rfl) (by simp [hpoint, stage])
          (by simp [hpoint, stage]) hactive hx
    | _ =>
      rw [hpoint] at he
      cases he

theorem separates_parts (h : separates d scopes s a = true) :
    undisturbed d s a = true ∧ staysIn d scopes s a = true := by
  simp only [separates, Bool.and_eq_true] at h
  exact h.1

theorem initial_separating (d : Deployment F) (scopes : List (String × String)) (start : Start) :
    Separating scopes (initial d start) where
  tracked := initial_tracked d start
  within := initial_withinScopes d scopes start
  reserved := initial_reserved d start
  own := by
    intro j hj
    cases hj
  aggregates := by
    intro t m r contribs n job he
    cases he
  duplicates := by
    intro job origin he
    cases he

variable [FloatArith F]

theorem add_pendingOwn (hsep : Separated scopes) (h : Separating scopes s) {c : Submitting F}
    {o : Oracle F} {job : Option PersistedTrainingJobRecord} {weights : List F}
    (hc : submitting s = some c) (hpoint : c.point = .add job weights) :
    PendingOwn (proceedSubmit d s c.q c.peer c.serial o c.point) := by
  have habsent := h.reserved.absent c hc (by simp [hpoint, stage]) (by simp [hpoint, stage])
  obtain ⟨hsame, hof⟩ := h.tracked.inFlight c job hc (by rw [hpoint]; rfl)
  rw [hpoint] at hof ⊢
  intro j hj hactive r hcurrent htarget hopen x hx
  have hadded := addWeight_added d.primitives d.config.toAggregationConfig s.world.crypto
    s.world.files s.world.buffer (submission d.config c.q job weights) o.draw
  have hold := h.own j hj hactive r hcurrent htarget (hadded.sameBut.completed ▸ hopen)
  show OfJob j.jobId (originAfter s c.q c.serial (.add job weights) _ x)
  rcases hadded.mem_submissions hx with ⟨hkey, rfl⟩ | hmem
  · obtain ⟨hscope, -⟩ := requestKey_inj hsep (h.within.submission c hc) (h.within.store j hj) hkey
    have hfound := activeJob_of_scope h.tracked.ledger.order.store.1 hj hactive hscope
    rw [hfound] at hsame
    obtain ⟨-, hid, lease, hnamed, hlease⟩ := hof j hfound rfl
    cases job with
    | none => cases hsame
    | some read =>
      have hnamed' : namedLease s.world.store c.q = some lease := hnamed
      refine ⟨⟨c.serial, some j.jobId⟩, ?_, rfl⟩
      have hkey' : roundKey j.tenantId j.modelId r = requestKey c.q := hkey
      simp [originAfter, hkey', submission, hnamed', hlease, hid]
  · have hother : ¬ (roundKey j.tenantId j.modelId r = requestKey c.q ∧ x = c.q.clientId) := by
      rintro ⟨hkey, rfl⟩
      rw [hkey, ← AList.lookup_isSome, habsent] at hmem
      cases hmem
    simp only [originAfter, if_neg hother]
    exact hold x hmem

theorem advance_pendingOwn (h : Separating scopes s) {c : Submitting F} {o : Oracle F}
    {job : PersistedTrainingJobRecord} {result : AggregationAttemptResult}
    (hc : submitting s = some c) (hpoint : c.point = .advance job result) :
    PendingOwn (proceedSubmit d s c.q c.peer c.serial o c.point) := by
  have hread : readJob c.point = some (some job) := by rw [hpoint]; rfl
  obtain ⟨active, hactive, -, hof⟩ := h.tracked.inFlight.active hc hread
  have hround := (hof (by rw [hpoint]; rfl)).round
  have hmem := getActive_mem hactive
  rw [hpoint]
  intro j hj hstatus r hcurrent htarget hopen x hx
  rcases advance_cases hactive hj with hold | ⟨-, rfl⟩
  · exact h.own j hold hstatus r hcurrent htarget hopen x hx
  · have hcurrent' : c.q.roundIndex + 1 ≤ r := hcurrent
    exact h.own active hmem.1 hmem.2.2.2 r (by omega) htarget hopen x hx

theorem proceed_pendingOwn (hsep : Separated scopes) (h : Separating scopes s) {c : Submitting F}
    {o : Oracle F} (hc : submitting s = some c) :
    PendingOwn (proceedSubmit d s c.q c.peer c.serial o c.point) := by
  have hother : stage c.point ≠ 8 → stage c.point ≠ 11 → stage c.point ≠ 13 →
      PendingOwn (proceedSubmit d s c.q c.peer c.serial o c.point) := by
    intro hadd hpublish hadvance
    have hbuffer : (proceedSubmit d s c.q c.peer c.serial o c.point).world.buffer =
        s.world.buffer := buffer_of_stage hadd hpublish
    have horigin : (proceedSubmit d s c.q c.peer c.serial o c.point).origin = s.origin := by
      cases hp : c.point with
      | add job weights => exact absurd (by rw [hp]; rfl) hadd
      | _ => rfl
    cases proceedSubmit_storeStep (d := d) hc o with
    | moved hm _ => exact h.own.move hm (by rw [hbuffer]) (by rw [hbuffer]) horigin
    | advanced hc' hpoint _ _ =>
      obtain rfl := Option.some.inj (hc.symm.trans hc')
      exact absurd (by rw [hpoint]; rfl) hadvance
  cases hpoint : c.point with
  | add job weights =>
    rw [← hpoint]
    exact add_pendingOwn hsep h hc hpoint
  | publish job pr v =>
    exact h.own.move (.of_jobRecords rfl) rfl (Finset.subset_insert _ _) rfl
  | advance job result =>
    rw [← hpoint]
    exact advance_pendingOwn h hc hpoint
  | _ =>
    rw [← hpoint]
    apply hother <;> simp [hpoint, stage]

theorem step_pendingOwn (hsep : Separated scopes) (h : Separating scopes s)
    (ha : separates d scopes s a = true) (hs : step d s a = some s') : PendingOwn s' := by
  cases step_jobStep hs with
  | moved hm _ hsame _ _ =>
    exact h.own.move hm hsame.roundWeights (by rw [hsame.completedRounds]) hsame.origin
  | create hcreates => exact create_pendingOwn h.own hcreates ha
  | submit hidle => exact h.own.move (.of_jobRecords rfl) rfl (Finset.Subset.refl _) rfl
  | proceed hc => exact proceed_pendingOwn hsep h hc
  | restart hrestart =>
    intro j hj hactive r hcurrent htarget hopen x hx
    rw [submissions, (restart_empty hrestart).1] at hx
    cases hx

theorem step_separating (hsep : Separated scopes) (h : Separating scopes s)
    (ha : separates d scopes s a = true) (hs : step d s a = some s') : Separating scopes s' := by
  obtain ⟨hundisturbed, hstays⟩ := separates_parts ha
  refine ⟨step_tracked h.tracked hundisturbed hs,
    step_withinScopes h.tracked.ledger.order h.within hstays hs, step_reserved h.reserved hs,
    step_pendingOwn hsep h ha hs, ?_, ?_⟩
  · intro t m r contribs n job he pair hpair
    rcases step_events hs he with hold | hnew
    · exact h.aggregates t m r contribs n job hold pair hpair
    · exact added_aggregated h hnew pair hpair
  · intro job origin he
    rcases step_events hs he with hold | hnew
    · exact h.duplicates job origin hold
    · exact added_refusedDuplicate h hnew

/-- In a run of the condition an aggregate which is made while a job is active
has vectors of that job only, and so has whatever a scheduled submission is
refused as a duplicate of. -/
theorem aggregates_of_one_job (hsep : Separated scopes) {start : Start}
    (h : Reaches (step d) (fun s a => separates d scopes s a = true) (initial d start) s) :
    (∀ t m r contribs n job, .aggregated t m r contribs n (some job) ∈ s.events →
      ∀ pair ∈ contribs, OfJob job pair.2) ∧
    (∀ job origin, .refusedDuplicate (some job) origin ∈ s.events → OfJob job origin) := by
  have hseparating : Separating scopes s := h.invariant (initial_separating d scopes start)
    (fun _ _ _ hi ha hs => step_separating hsep hi ha hs)
  exact ⟨hseparating.aggregates, hseparating.duplicates⟩

def aggregatedServer : Server Binary32 :=
  (execTested (step standardDeployment) (separates standardDeployment [("t", "m")]) acceptedRun
    (initial standardDeployment firstStart)).get (by decide +kernel)

/-- The origins of the vectors of an aggregate made while this job was active. -/
def aggregatedFor (job : String) : Event Binary32 → Option (List (Option Origin))
  | .aggregated _ _ _ contribs _ (some job') => if job' = job then some (contribs.map (·.2)) else none
  | _ => none

theorem mem_of_aggregatedFor {e : Event Binary32} {job : String} {origins : List (Option Origin)}
    (h : aggregatedFor job e = some origins) : ∃ t m r contribs n,
      e = .aggregated t m r contribs n (some job) ∧ origins = contribs.map (·.2) := by
  cases e with
  | aggregated t m r contribs n job' =>
    cases job' with
    | none => cases h
    | some job' =>
      simp only [aggregatedFor] at h
      split at h
      · rename_i hjob
        exact ⟨t, m, r, contribs, n, by rw [hjob], (Option.some.inj h).symm⟩
      · cases h
  | _ => cases h

theorem aggregates_of_one_job_aggregatedServer :
    ∃ t m r contribs n, .aggregated t m r contribs n (some jobAt1) ∈ aggregatedServer.events ∧
      contribs.length = 1 ∧ ∀ pair ∈ contribs, OfJob jobAt1 pair.2 := by
  have hreach : Reaches (step standardDeployment) (fun s a => separates standardDeployment
      [("t", "m")] s a = true) (initial standardDeployment firstStart) aggregatedServer :=
    execTested_reaches _ (fun _ _ h => h) _ (Option.some_get _).symm
  have hone := aggregates_of_one_job (show Separated [("t", "m")] by decide) hreach
  have hevent : (aggregatedServer.events.filterMap (aggregatedFor jobAt1)).map List.length = [1] := by
    decide +kernel
  have hlengths : 1 ∈ (aggregatedServer.events.filterMap (aggregatedFor jobAt1)).map List.length := by
    rw [hevent]
    exact List.mem_singleton.mpr rfl
  obtain ⟨origins, horigins, hlength⟩ := List.mem_map.mp hlengths
  obtain ⟨e, he, hfor⟩ := List.mem_filterMap.mp horigins
  obtain ⟨t, m, r, contribs, n, rfl, rfl⟩ := mem_of_aggregatedFor hfor
  exact ⟨t, m, r, contribs, n, he, by simpa using hlength, hone.1 t m r contribs n jobAt1 he⟩

/-- A client of the first job waits for a second client, which comes with the second job. -/
def mixedRun : List (Action Binary32) :=
  registering "a" site ++ registering "b" site ++ [addingDataset, creatingJob 3 2 1] ++
    leasing "a" site 2 ++ .submitWeights (zeroSubmission "a" 1 jobAt1 leaseAt2) site ::
    proceeds 11 2 ++ [creatingJob 3 2 3] ++ leasing "b" site 4 ++
    .submitWeights (zeroSubmission "b" 1 jobAt3 leaseAt4) site :: proceeds 12 4

def mixedServer : Server Binary32 :=
  (exec (step standardDeployment) mixedRun (initial standardDeployment firstStart)).get
    (by decide +kernel)

/-- The vector of the superseded job enters the aggregate of its successor. -/
theorem superseded_vector_aggregated :
    ¬ ∀ s, Reaches (step standardDeployment) Free (initial standardDeployment firstStart) s →
      (∀ t m r contribs n job, .aggregated t m r contribs n (some job) ∈ s.events →
        ∀ pair ∈ contribs, OfJob job pair.2) ∧
      (∀ job origin, .refusedDuplicate (some job) origin ∈ s.events → OfJob job origin) := by
  intro hall
  have hreach : Reaches (step standardDeployment) Free (initial standardDeployment firstStart)
      mixedServer := exec_reaches _ (Option.some_get _).symm
  have hevent : mixedServer.events.filterMap (aggregatedFor jobAt3) =
      [[some ⟨1, some jobAt3⟩, some ⟨0, some jobAt1⟩]] := by decide +kernel
  have hmixed : [some ⟨1, some jobAt3⟩, some ⟨0, some jobAt1⟩] ∈
      mixedServer.events.filterMap (aggregatedFor jobAt3) := by
    rw [hevent]
    exact List.mem_singleton.mpr rfl
  obtain ⟨e, he, hfor⟩ := List.mem_filterMap.mp hmixed
  obtain ⟨t, m, r, contribs, n, rfl, horigins⟩ := mem_of_aggregatedFor hfor
  have hfirst : some ⟨0, some jobAt1⟩ ∈ contribs.map (·.2) := by
    rw [← horigins]
    simp
  obtain ⟨pair, hpair, hpair2⟩ := List.mem_map.mp hfirst
  obtain ⟨o, ho, hjob⟩ := (hall _ hreach).1 t m r contribs n jobAt3 he pair hpair
  rw [hpair2] at ho
  obtain rfl := Option.some.inj ho
  exact absurd hjob (by decide)

end PqFl.JobSeparation
