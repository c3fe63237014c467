import PqFl.LeaseOwnership

/-!
# What a submission in progress knows

A submission reads the active job once and checks its lease once. What it
learnt there is tracked over the following steps, its own and those of other
handlers, up to its last call of the store.
-/

set_option autoImplicit false

namespace PqFl.SubmissionTracking
open PqFl.Identifiers PqFl.Timestamps PqFl.StoreRecords PqFl.StateStore PqFl.Crypto
open PqFl.Aggregation PqFl.Buffer PqFl.Services PqFl.Process PqFl.JobLedger PqFl.JobSteps
open PqFl.JobRuns PqFl.ListUpdate PqFl.Runs PqFl.LeaseOwnership

variable {F : Type} {d : Deployment F} {s s' : Server F} {a : Action F}

def readJob : SubmitPoint F → Option (Option PersistedTrainingJobRecord)
  | .validate _ job => some (some job)
  | .roundCheck _ job => some job
  | .duplicateCheck _ job => some job
  | .decrypt job => some job
  | .updateClient job _ => some job
  | .recordSubmission job _ => some job
  | .add job _ => some job
  | .keyVersion job _ => some job
  | .record job _ _ => some job
  | .publish job _ _ => some job
  | .accept job _ => some (some job)
  | .advance job _ => some (some job)
  | _ => none

def isChecked : SubmitPoint F → Bool
  | .validate _ _ => false
  | p => (readJob p).isSome

def validation (store : StateStore) (q : SubmitWeightsRequest) (now : ℕ) :
    Outcome (Except String Unit) :=
  validateTrainingAssignmentSubmission store (normalizeTenant q.tenantId) (normalizeModel q.modelId)
    q.clientId q.jobId q.assignmentId q.roundIndex q.baseModelVersion now

/-- How a step of a submission changes what it remembers, and the store. -/
inductive Track (x : StateStore) (q : SubmitWeightsRequest) (now : ℕ) (p p' : SubmitPoint F)
    (y : StateStore) : Prop
  | forgot (h : readJob p' = none)
  | read (hpoint : ∃ current, p = .activeJob current) (h : readJob p' = some (activeJob x q))
      (hchecked : isChecked p' = (activeJob x q).isNone) (hstore : y = x)
  | validated {current : ℤ} {job : PersistedTrainingJobRecord} (hpoint : p = .validate current job)
      (h : readJob p' = some (some job)) (hchecked : isChecked p' = true)
      (hok : (validation x q now).value = .ok ()) (hstore : y = (validation x q now).store)
  | on (h : readJob p' = readJob p) (hchecked : isChecked p' = isChecked p)
      (hmove : Move x y)

theorem afterAttempt_track {x y : StateStore} {q : SubmitWeightsRequest} {now : ℕ}
    {p : SubmitPoint F} (cfg : Config F) {job : Option PersistedTrainingJobRecord}
    (result : AggregationAttemptResult) (hp : readJob p = some job) (hc : isChecked p = true)
    (hmove : Move x y) : Track x q now p (afterAttempt cfg job result) y := by
  rcases afterAttempt_cases cfg job result with ⟨j, rfl, -, h⟩ | ⟨-, -, h⟩ | ⟨-, h⟩
  · rw [h]
    exact .on hp.symm hc.symm hmove
  · rw [h]
    exact .forgot rfl
  · rw [h]
    exact .forgot rfl

/-- A fact about the store which holds for the submission in progress, given
the job it read and whether it has checked its lease. -/
def InFlight (I : StateStore → SubmitWeightsRequest → Option PersistedTrainingJobRecord → Bool → Prop)
    (s : Server F) : Prop := ∀ c job, submitting s = some c → readJob c.point = some job →
      I s.world.store c.q job (isChecked c.point)

def atValidate : SubmitPoint F → Bool
  | .validate _ _ => true
  | _ => false

/-- Jobs get fresh identifiers, and not while a submission of their scope relies
on the active job it read; a submission names a lease of the job it names. -/
def undisturbed (d : Deployment F) (s : Server F) : Action F → Bool
  | .createTrainingJob q peer now => !createsJob d s q peer || (freshJobId s.world.store q now &&
      !inProgress s (fun p => (readJob p).isSome) q.tenantId q.modelId)
  | .proceed _ => (submitting s).all (fun c =>
      !atValidate c.point || ownLease s.world.store c.q.jobId c.q.assignmentId)
  | _ => true

/-- The submission is for the round its job is in, under a lease of that job. -/
structure OfRound (x : StateStore) (q : SubmitWeightsRequest) (active : PersistedTrainingJobRecord) :
    Prop where
  round : q.roundIndex = active.currentRound
  jobId : q.jobId = active.jobId
  named : ∃ a, leaseNamed x q.assignmentId = some a ∧ a.jobId = q.jobId

/-- The active job is the one which the submission read. -/
def Undisturbed (x : StateStore) (q : SubmitWeightsRequest)
    (job : Option PersistedTrainingJobRecord) (checked : Bool) : Prop :=
  (activeJob x q).map (·.jobId) = job.map (·.jobId) ∧
    ∀ active, activeJob x q = some active → checked = true → OfRound x q active

theorem not_inProgress {points : SubmitPoint F → Bool} {t m : String} {c : Submitting F}
    (h : inProgress s points t m = false) (hc : submitting s = some c)
    (hp : points c.point = true) : ¬ (normalizeTenant c.q.tenantId = normalizeTenant t ∧
      normalizeModel c.q.modelId = normalizeModel m) := by
  rintro ⟨ht, hm⟩
  simp [inProgress, hc, hp, ht, hm] at h

theorem undisturbed_create {q : CreateTrainingJobRequest} {peer : Peer} {now : ℕ}
    (h : undisturbed d s (.createTrainingJob q peer now) = true)
    (hcreates : createsJob d s q peer = true) : freshJobId s.world.store q now = true ∧
      inProgress s (fun p => (readJob p).isSome) q.tenantId q.modelId = false := by
  simpa [undisturbed, hcreates] using h

theorem inProgress_mono {points points' : SubmitPoint F → Bool} {t m : String}
    (hpoints : ∀ p, points p = true → points' p = true) (h : inProgress s points' t m = false) :
    inProgress s points t m = false := by
  unfold inProgress at h ⊢
  cases hc : submitting s with
  | none => rfl
  | some c =>
    rw [hc, Option.any_some] at h
    rw [Option.any_some]
    by_contra hbusy
    simp only [Bool.and_eq_true, Bool.not_eq_false] at hbusy
    simp [hpoints c.point hbusy.1.1, hbusy.1.2, hbusy.2] at h

theorem InFlight.active (h : InFlight Undisturbed s) {c : Submitting F}
    {job : PersistedTrainingJobRecord} (hc : submitting s = some c)
    (hread : readJob c.point = some (some job)) :
    ∃ active, activeJob s.world.store c.q = some active ∧ active.jobId = job.jobId ∧
      (isChecked c.point = true → OfRound s.world.store c.q active) := by
  obtain ⟨hsame, hround⟩ := h c (some job) hc hread
  obtain ⟨active, hactive, hid⟩ := Option.map_eq_some_iff.mp hsame
  exact ⟨active, hactive, hid, hround active hactive⟩

theorem keepsOwners_of_undisturbed (h : InFlight Undisturbed s) (ha : undisturbed d s a = true) :
    keepsOwners d s a = true := by
  cases a with
  | createTrainingJob q peer now =>
    by_cases hcreates : createsJob d s q peer = true
    · obtain ⟨hfresh, hidle⟩ := undisturbed_create ha hcreates
      have hnot : inProgress s atAdvance q.tenantId q.modelId = false := by
        apply inProgress_mono _ hidle
        intro p hp
        cases p <;> simp_all [atAdvance, readJob]
      simp [keepsOwners, hcreates, hfresh, hnot]
    · simp [keepsOwners, hcreates]
  | proceed o =>
    cases hc : submitting s with
    | none => simp [keepsOwners, hc]
    | some c =>
      have hown : atAccept c.point = true →
          ownLease s.world.store c.q.jobId c.q.assignmentId = true := by
        intro haccept
        obtain ⟨job, result, hp⟩ : ∃ job result, c.point = .accept job result := by
          cases hp : c.point <;> simp_all [atAccept]
        obtain ⟨active, -, -, hof⟩ := h.active hc (by rw [hp]; rfl)
        obtain ⟨b, hnamed, hb⟩ := (hof (by rw [hp]; rfl)).named
        simp [ownLease, hnamed, hb]
      simp only [keepsOwners, hc, Option.all_some, Bool.or_eq_true, Bool.not_eq_true']
      cases haccept : atAccept c.point with
      | true => exact .inr (hown haccept)
      | false => exact .inl rfl
  | _ => rfl

/-- What every run of undisturbed submissions keeps. -/
structure Tracked (s : Server F) : Prop where
  ledger : LedgerKept s
  inFlight : InFlight Undisturbed s

theorem initial_tracked (d : Deployment F) (start : Start) : Tracked (initial d start) where
  ledger := initial_ledgerKept d start
  inFlight := by
    intro c job hc
    cases hc

def requestScope (q : SubmitWeightsRequest) : String × String :=
  (normalizeTenant q.tenantId, normalizeModel q.modelId)

def JobsIn (scopes : List (String × String)) (x : StateStore) : Prop :=
  ∀ j ∈ x.trainingJobs, (j.tenantId, j.modelId) ∈ scopes

structure WithinScopes (scopes : List (String × String)) (s : Server F) : Prop where
  store : JobsIn scopes s.world.store
  disk : JobsIn scopes s.world.disk
  submission : ∀ c, submitting s = some c → requestScope c.q ∈ scopes

theorem initial_withinScopes (d : Deployment F) (scopes : List (String × String)) (start : Start) :
    WithinScopes scopes (initial d start) where
  store := by simp [JobsIn, initial, emptyStore]
  disk := by simp [JobsIn, initial, emptyStore]
  submission := by
    intro c hc
    cases hc

variable [FloatArith F]

theorem stepSubmitWeights_track {w : World F} {q : SubmitWeightsRequest} {peer : Peer}
    {o : Oracle F} {p p' : SubmitPoint F}
    (h : (stepSubmitWeights d w q peer o p).2 = .inl p') :
    Track w.store q o.now p p' (stepSubmitWeights d w q peer o p).1.store := by
  cases p with
  | modelVersion =>
    obtain rfl := Sum.inl.inj h
    apply Track.forgot
    split <;> rfl
  | activeJob current =>
    simp only [stepSubmitWeights] at h ⊢
    cases hjob : activeJob w.store q with
    | none =>
      rw [activeJob] at hjob
      simp only [hjob] at h ⊢
      obtain rfl := Sum.inl.inj h
      exact .read ⟨current, rfl⟩ (by rw [activeJob, hjob]; rfl) (by rw [activeJob, hjob]; rfl) rfl
    | some job =>
      rw [activeJob] at hjob
      simp only [hjob] at h ⊢
      obtain rfl := Sum.inl.inj h
      exact .read ⟨current, rfl⟩ (by rw [activeJob, hjob]; rfl) (by rw [activeJob, hjob]; rfl) rfl
  | validate current job =>
    obtain rfl := Sum.inl.inj h
    split
    · exact .forgot rfl
    · rename_i hok
      exact .validated rfl rfl rfl hok rfl
  | roundCheck current job =>
    obtain rfl := Sum.inl.inj h
    split
    · exact .forgot rfl
    · exact .on rfl rfl (.of_jobRecords rfl)
  | duplicateCheck current job =>
    obtain rfl := Sum.inl.inj h
    split
    · exact .forgot rfl
    · exact .on rfl rfl (.of_jobRecords rfl)
  | decrypt job =>
    simp only [stepSubmitWeights] at h ⊢
    split at h
    · obtain rfl := Sum.inl.inj h
      exact .forgot rfl
    · rename_i hopened
      obtain rfl := Sum.inl.inj h
      exact .on rfl rfl (.of_jobRecords rfl)
  | updateClient job weights =>
    obtain rfl := Sum.inl.inj h
    exact .on rfl rfl (.of_jobRecords (updateClientLastRound_frame _ _ _ _ _).1)
  | recordSubmission job weights =>
    obtain rfl := Sum.inl.inj h
    exact .on rfl rfl (.of_jobRecords (recordWeightSubmission_frame _ _ _ _ _ _).1)
  | add job weights =>
    simp only [stepSubmitWeights, Sum.inl.injEq] at h ⊢
    subst h
    split
    · exact afterAttempt_track d.config _ rfl rfl (.of_jobRecords rfl)
    · exact .on rfl rfl (.of_jobRecords rfl)
  | keyVersion job p =>
    obtain rfl := Sum.inl.inj h
    exact .on rfl rfl (.of_jobRecords rfl)
  | record job p keyVersion =>
    obtain rfl := Sum.inl.inj h
    exact .on rfl rfl (.of_jobRecords (recordAggregatedModel_frame _ _ _ _ _ _ _ _ _ _).1)
  | publish job p modelVersion =>
    obtain rfl := Sum.inl.inj h
    exact afterAttempt_track d.config _ rfl rfl (.of_jobRecords rfl)
  | accept job result =>
    obtain rfl := Sum.inl.inj h
    split
    · exact .forgot rfl
    · split
      · exact .on rfl rfl (accept_move _ _ _ _ _ _ _ _ _)
      · exact .forgot rfl
  | advance job result =>
    obtain rfl := Sum.inl.inj h
    exact .forgot rfl
  | respond response countClients => cases h

theorem step_inFlight
    {I : StateStore → SubmitWeightsRequest → Option PersistedTrainingJobRecord → Bool → Prop}
    (hread : ∀ x q, I x q (activeJob x q) (activeJob x q).isNone)
    (hmove : ∀ {x y : StateStore} {q job b}, Orderly x ∧ Unfinished x → Move x y → I x q job b →
      I y q job b)
    (hvalidate : ∀ c current job o, a = .proceed o → submitting s = some c →
      c.point = .validate current job → (validation s.world.store c.q o.now).value = .ok () →
      I s.world.store c.q (some job) false →
      I (validation s.world.store c.q o.now).store c.q (some job) true)
    (hcreate : ∀ q peer now, a = .createTrainingJob q peer now → createsJob d s q peer = true →
      ∀ c job, submitting s = some c → readJob c.point = some job →
      I s.world.store c.q job (isChecked c.point) →
      I (createTrainingJob s.world.store (requestedJob q) now).store c.q job (isChecked c.point))
    (ho : InOrder s) (h : InFlight I s) (hs : step d s a = some s') : InFlight I s' := by
  intro c' job hc' hjob
  cases step_jobStep hs with
  | moved hm _ _ _ hsubmit =>
    rw [hsubmit] at hc'
    exact hmove ho.store hm (h c' job hc' hjob)
  | create hcreates => exact hcreate _ _ _ rfl hcreates c' job hc' hjob (h c' job hc' hjob)
  | @submit q peer _ =>
    rw [submitting_startSubmit] at hc'
    obtain rfl := Option.some.inj hc'
    rcases startSubmitWeights_cases s.world.registry q peer with hp | ⟨message, hp⟩
    · rw [hp] at hjob
      cases hjob
    · rw [hp] at hjob
      cases hjob
  | @proceed c o hc =>
    obtain ⟨p, hnext, rfl⟩ := submitting_proceed.mp hc'
    dsimp only at hjob ⊢
    show I (stepSubmitWeights d s.world c.q c.peer o c.point).1.store c.q job (isChecked p)
    cases stepSubmitWeights_track hnext with
    | forgot hnone =>
      rw [hnone] at hjob
      cases hjob
    | read _ hsome hchecked hstore =>
      obtain rfl := Option.some.inj (hsome.symm.trans hjob)
      rw [hstore, hchecked]
      exact hread _ _
    | @validated current j hpoint hsome hchecked hok hstore =>
      obtain rfl := Option.some.inj (hsome.symm.trans hjob)
      have hbefore := h c (some j) hc (by rw [hpoint]; rfl)
      rw [hpoint] at hbefore
      rw [hstore]
      rw [hchecked]
      exact hvalidate c current j o rfl hc hpoint hok hbefore
    | on hsame hchecked hm =>
      rw [hchecked]
      exact hmove ho.store hm (h c job hc (hsame.symm.trans hjob))
  | restart hrestart =>
    obtain ⟨w, -, rfl⟩ := Option.map_eq_some_iff.mp hrestart
    cases hc'

def LeaseChecked (x : StateStore) (q : SubmitWeightsRequest) : Prop :=
  (q.jobId ≠ "" ∧ q.assignmentId ≠ "") ∧ ∃ a, leaseNamed x q.assignmentId = some a ∧
    Fits a (normalizeTenant q.tenantId) (normalizeModel q.modelId) q.clientId q.roundIndex
      q.baseModelVersion

theorem LeaseChecked.move {x y : StateStore} {q : SubmitWeightsRequest} (h : LeaseChecked x q)
    (hm : Move x y) : LeaseChecked y q := by
  obtain ⟨hne, a, hnamed, hfits⟩ := h
  obtain ⟨a', hnamed', hkept⟩ := leaseNamed_move hm hnamed
  exact ⟨hne, a', hnamed', hfits.kept hkept⟩

theorem validation_ok {x : StateStore} {q : SubmitWeightsRequest} {now : ℕ}
    {job : PersistedTrainingJobRecord} (hjob : activeJob x q = some job)
    (h : (validation x q now).value = .ok ()) :
    ∃ a, leaseNamed x q.assignmentId = some a ∧ a.status = .leased ∧ q.jobId = job.jobId ∧
      Fits a (normalizeTenant q.tenantId) (normalizeModel q.modelId) q.clientId q.roundIndex
        q.baseModelVersion ∧ (q.jobId ≠ "" ∧ q.assignmentId ≠ "") := by
  unfold validation validateTrainingAssignmentSubmission at h
  dsimp only at h
  split at h
  · rename_i hnone
    have hnoJob := check_noActiveJob hnone
    rw [getActive_expire] at hnoJob
    cases hjob.symm.trans hnoJob
  · cases h
  · cases h
  · rename_i a hpassed
    exact check_passed_expire hjob hpassed

/-- A submission which read an active job still finds one, and its lease fits. -/
def Scheduled (x : StateStore) (q : SubmitWeightsRequest) (job : Option PersistedTrainingJobRecord)
    (checked : Bool) : Prop :=
  job.isSome = true → (activeJob x q).isSome = true ∧ (checked = true → LeaseChecked x q)

theorem Scheduled.move {x y : StateStore} {q : SubmitWeightsRequest}
    {job : Option PersistedTrainingJobRecord} {checked : Bool} (hx : Orderly x ∧ Unfinished x)
    (hm : Move x y) (h : Scheduled x q job checked) : Scheduled y q job checked := by
  intro hsome
  obtain ⟨hactive, hlease⟩ := h hsome
  obtain ⟨active, hfound⟩ := Option.isSome_iff_exists.mp hactive
  obtain ⟨active', hfound', -⟩ := active_move hx hm hfound
  exact ⟨Option.isSome_iff_exists.mpr ⟨active', hfound'⟩, fun hc => (hlease hc).move hm⟩

theorem created_active {x : StateStore} (ho : Orderly x) (r : CreateTrainingJobRequest) (now : ℕ)
    (q : SubmitWeightsRequest) :
    activeJob (createTrainingJob x (requestedJob r) now).store q = activeJob x q ∨
      activeJob (createTrainingJob x (requestedJob r) now).store q =
        some (createTrainingJob x (requestedJob r) now).value := by
  by_cases hscope : normalizeTenant q.tenantId = normalizeTenant r.tenantId ∧
      normalizeModel q.modelId = normalizeModel r.modelId
  · right
    have hnew := active_created ho (requestedJob r) now rfl
    rw [activeJob, hscope.1, hscope.2]
    simpa [getActiveTrainingJob, requestedJob] using hnew
  · left
    apply active_create ho
    simpa [requestedJob] using hscope

theorem step_scheduled (ho : InOrder s) (h : InFlight Scheduled s) (hs : step d s a = some s') :
    InFlight Scheduled s' := by
  apply step_inFlight (I := Scheduled) _ Scheduled.move _ _ ho h hs
  · intro x q hsome
    refine ⟨hsome, fun hnone => ?_⟩
    rw [Option.isNone_iff_eq_none.mp hnone] at hsome
    cases hsome
  · intro c current job o _ hc hpoint hok hbefore hsome
    obtain ⟨hactive, -⟩ := hbefore hsome
    obtain ⟨active, hfound⟩ := Option.isSome_iff_exists.mp hactive
    obtain ⟨a, hnamed, -, -, hfits, hne⟩ := validation_ok hfound hok
    have hmove : Move s.world.store (validation s.world.store c.q o.now).store :=
      validate_move _ _ _ _ _ _ _ _ _
    obtain ⟨active', hfound', -⟩ := active_move ho.store hmove hfound
    exact ⟨Option.isSome_iff_exists.mpr ⟨active', hfound'⟩,
      fun _ => LeaseChecked.move ⟨hne, a, hnamed, hfits⟩ hmove⟩
  · intro q peer now _ _ c job hc hjob hbefore hsome
    obtain ⟨hactive, hlease⟩ := hbefore hsome
    refine ⟨?_, fun hchecked => ?_⟩
    · rcases created_active ho.store.1 q now c.q with hsame | hnew
      · rw [hsame]
        exact hactive
      · rw [hnew]
        rfl
    · obtain ⟨hne, a, hnamed, hfits⟩ := hlease hchecked
      refine ⟨hne, a, ?_, hfits⟩
      rw [leaseNamed, (create_jobs _ _ _).2]
      exact hnamed

theorem OfRound.move {x y : StateStore} {q : SubmitWeightsRequest}
    {active active' : PersistedTrainingJobRecord} (h : OfRound x q active) (hm : Move x y)
    (hk : JobKept active active') : OfRound y q active' where
  round := h.round.trans hk.currentRound.symm
  jobId := h.jobId.trans hk.jobId.symm
  named := by
    obtain ⟨a, hnamed, hid⟩ := h.named
    obtain ⟨a', hnamed', hkept⟩ := leaseNamed_move hm hnamed
    exact ⟨a', hnamed', hkept.jobId.trans hid⟩

theorem Undisturbed.move {x y : StateStore} {q : SubmitWeightsRequest}
    {job : Option PersistedTrainingJobRecord} {checked : Bool} (hx : Orderly x ∧ Unfinished x)
    (hm : Move x y) (h : Undisturbed x q job checked) : Undisturbed y q job checked := by
  constructor
  · rw [← h.1]
    cases hbefore : activeJob x q with
    | some active =>
      obtain ⟨active', hafter, hk⟩ := active_move hx hm hbefore
      rw [activeJob, hafter, Option.map_some, hk.jobId, Option.map_some]
    | none =>
      cases hafter : activeJob y q with
      | none => rfl
      | some active' =>
        obtain ⟨active, hfound, -⟩ := active_of_move hx.1 hm hafter
        cases hbefore.symm.trans hfound
  · intro active' hafter hchecked
    obtain ⟨active, hbefore, hk⟩ := active_of_move hx.1 hm hafter
    exact (h.2 active hbefore hchecked).move hm hk

theorem step_undisturbed (hk : LedgerKept s) (h : InFlight Undisturbed s)
    (ha : undisturbed d s a = true) (hs : step d s a = some s') : InFlight Undisturbed s' := by
  apply step_inFlight (I := Undisturbed) _ Undisturbed.move _ _ hk.order h hs
  · intro x q
    refine ⟨rfl, fun active hactive hnone => ?_⟩
    rw [hactive] at hnone
    cases hnone
  · intro c current job o hact hc hpoint hok hbefore
    subst hact
    have hmove : Move s.world.store (validation s.world.store c.q o.now).store :=
      validate_move _ _ _ _ _ _ _ _ _
    refine ⟨(hbefore.move hk.order.store hmove).1, fun active' hafter _ => ?_⟩
    obtain ⟨active, hactive, hkept⟩ := active_of_move hk.order.store.1 hmove hafter
    obtain ⟨b, hnamed, hleased, hid, hfits, -⟩ := validation_ok hactive hok
    have hown : ownLease s.world.store c.q.jobId c.q.assignmentId = true := by
      simpa [undisturbed, hc, hpoint, atValidate] using ha
    have hb : b.jobId = c.q.jobId := by simpa [ownLease, hnamed] using hown
    obtain ⟨hmem, -, -, hstatus⟩ := getActive_mem hactive
    have hround := hk.store.current b (List.mem_of_find?_eq_some hnamed) hleased active hmem
      (hb.trans hid).symm hstatus
    have hof : OfRound s.world.store c.q active :=
      ⟨hfits.roundIndex.symm.trans hround, hid, b, hnamed, hb⟩
    exact hof.move hmove hkept
  · intro q peer now hact hcreates c job hc hjob hbefore
    subst hact
    obtain ⟨-, hidle⟩ := undisturbed_create ha hcreates
    have hscope := not_inProgress hidle hc (by rw [hjob]; rfl)
    have hsame : activeJob (createTrainingJob s.world.store (requestedJob q) now).store c.q =
        activeJob s.world.store c.q := by
      apply active_create hk.order.store.1
      simpa [requestedJob] using hscope
    unfold Undisturbed
    rw [hsame]
    refine ⟨hbefore.1, fun active hactive hchecked => ?_⟩
    obtain ⟨hround, hid, a, hnamed, hown⟩ := hbefore.2 active hactive hchecked
    refine ⟨hround, hid, a, ?_, hown⟩
    rw [leaseNamed, (create_jobs _ _ _).2]
    exact hnamed

theorem step_tracked (h : Tracked s) (ha : undisturbed d s a = true) (hs : step d s a = some s') :
    Tracked s' where
  ledger := step_ledgerKept h.ledger (keepsOwners_of_undisturbed h.inFlight ha) hs
  inFlight := step_undisturbed h.ledger h.inFlight ha hs

def liveLease (x : StateStore) (q : SubmitWeightsRequest) (now : ℕ) : Bool :=
  (leaseNamed x q.assignmentId).all (fun a =>
    a.status == .leased && !hasLapsed (currentTimestamp now) a)

theorem acceptance_of_liveLease {x : StateStore} {q : SubmitWeightsRequest} {now : ℕ}
    {active : PersistedTrainingJobRecord} (hactive : activeJob x q = some active)
    (hid : q.jobId = active.jobId) (hchecked : LeaseChecked x q)
    (hlive : liveLease x q now = true) : (acceptance x q now).value = .ok () := by
  obtain ⟨hne, a, hnamed, hfits⟩ := hchecked
  simp only [liveLease, hnamed, Option.all_some, Bool.and_eq_true, beq_iff_eq,
    Bool.not_eq_true'] at hlive
  obtain ⟨hleased, hlapsed⟩ := hlive
  have hstays : lapse (currentTimestamp now) a = a := by simp [lapse, hlapsed]
  have hnow : ¬ (a.expiresAt ≠ "" ∧ a.expiresAt ≤ currentTimestamp now) := by
    rintro ⟨hset, hpast⟩
    simp [hasLapsed, hleased, hset, hpast] at hlapsed
  have hswept : leaseNamed (expireAssignmentsLocked x (currentTimestamp now)) q.assignmentId =
      some a := by
    rw [leaseNamed_expire, hnamed, Option.map_some, hstays]
  have hpassed := check_of_fits (by rw [getActive_expire]; exact hactive) hid hne hswept hfits
    hleased hnow
  unfold acceptance acceptTrainingAssignmentSubmission
  dsimp only
  rw [hpassed]

def Separated (scopes : List (String × String)) : Prop := ∀ x ∈ scopes, ∀ y ∈ scopes,
  scopeKey x.1 x.2 = scopeKey y.1 y.2 → x = y

instance (scopes : List (String × String)) : Decidable (Separated scopes) :=
  inferInstanceAs (Decidable (∀ x ∈ scopes, ∀ y ∈ scopes, _))

/-- The submissions and the jobs of a run are in these scopes. -/
def staysIn (d : Deployment F) (scopes : List (String × String)) (s : Server F) :
    Action F → Bool
  | .submitWeights q _ => scopes.contains (requestScope q)
  | .createTrainingJob q peer _ => !createsJob d s q peer ||
      scopes.contains (normalizeTenant q.tenantId, normalizeModel q.modelId)
  | _ => true

theorem JobsIn.move {scopes : List (String × String)} {x y : StateStore} (h : JobsIn scopes x)
    (hm : Move x y) : JobsIn scopes y := by
  intro j' hj'
  obtain ⟨j, hj, hk⟩ := forall₂_of_mem hm.jobs hj'
  rw [hk.tenantId, hk.modelId]
  exact h j hj

theorem step_withinScopes {scopes : List (String × String)} (ho : InOrder s)
    (h : WithinScopes scopes s) (ha : staysIn d scopes s a = true) (hs : step d s a = some s') :
    WithinScopes scopes s' := by
  have hjobs := (step_storeStep ho.disk.1 hs).keeps (Q := JobsIn scopes) (fun hx hm => hx.move hm)
    (fun q peer now hact hcreates hx => by
      subst hact
      intro j hj
      rw [(create_jobs _ _ _).1] at hj
      rcases List.mem_append.mp hj with hj | hj
      · obtain ⟨i, hi, rfl⟩ := List.mem_map.mp hj
        rw [(supersede_same _ _ i).tenantId, (supersede_same _ _ i).modelId]
        exact hx i hi
      · obtain rfl := List.mem_singleton.mp hj
        show (normalizeTenant q.tenantId, normalizeModel q.modelId) ∈ scopes
        simpa [staysIn, hcreates] using ha)
    (fun c job result now _ _ hx => by
      intro j hj
      cases hactive : getActiveTrainingJob s.world.store (normalizeTenant c.q.tenantId)
          (normalizeModel c.q.modelId) with
      | none =>
        rw [advance_none hactive] at hj
        exact hx j hj
      | some active =>
        rcases advance_cases hactive hj with hmem | ⟨hmem, rfl⟩
        · exact hx j hmem
        · exact hx active hmem)
    h.store h.disk
  refine ⟨hjobs.1, hjobs.2, ?_⟩
  intro c' hc'
  cases step_jobStep hs with
  | moved _ _ _ _ hsubmit =>
    rw [hsubmit] at hc'
    exact h.submission c' hc'
  | create _ => exact h.submission c' hc'
  | submit _ =>
    rw [submitting_startSubmit] at hc'
    obtain rfl := Option.some.inj hc'
    simpa [staysIn] using ha
  | @proceed c o hc =>
    obtain ⟨p, -, rfl⟩ := submitting_proceed.mp hc'
    exact h.submission c hc
  | restart hrestart =>
    obtain ⟨w, -, rfl⟩ := Option.map_eq_some_iff.mp hrestart
    cases hc'

theorem requestKey_inj {scopes : List (String × String)} (hsep : Separated scopes)
    {q : SubmitWeightsRequest} {t m : String} {r : ℤ} (hq : requestScope q ∈ scopes)
    (htm : (t, m) ∈ scopes) (h : roundKey t m r = requestKey q) :
    requestScope q = (t, m) ∧ r = q.roundIndex := by
  obtain ⟨hscope, hround⟩ := roundKey_inj h
  exact ⟨(hsep _ htm _ hq hscope).symm, hround⟩

theorem activeJob_of_scope {x : StateStore} (ho : Orderly x) {q : SubmitWeightsRequest}
    {j : PersistedTrainingJobRecord} (hj : j ∈ x.trainingJobs)
    (hactive : isActiveJobStatus j.status = true)
    (hscope : requestScope q = (j.tenantId, j.modelId)) : activeJob x q = some j := by
  obtain ⟨ht, hm⟩ := Prod.mk.inj hscope
  apply ho.active_unique hj
  rw [ht, hm, isActiveJobOf_iff, (ho.jobsNormal j hj).1, (ho.jobsNormal j hj).2]
  exact ⟨rfl, rfl, hactive⟩

theorem stepSubmitWeights_buffer (w : World F) (q : SubmitWeightsRequest) (peer : Peer)
    (o : Oracle F) (p : SubmitPoint F) :
    (∃ job weights, p = .add job weights) ∨ (∃ job pr v, p = .publish job pr v) ∨
      (stepSubmitWeights d w q peer o p).1.buffer = w.buffer := by
  cases p with
  | add job weights => exact .inl ⟨job, weights, rfl⟩
  | publish job pr v => exact .inr (.inl ⟨job, pr, v, rfl⟩)
  | activeJob current =>
    right; right
    simp only [stepSubmitWeights]
    split <;> rfl
  | decrypt job =>
    right; right
    simp only [stepSubmitWeights]
    split <;> rfl
  | _ => exact .inr (.inr rfl)

theorem restorePersistedModels_empty (P : Primitives) (w : World F)
    (models : List PersistedModelRecord) :
    (restorePersistedModels P w models).roundWeights = ∅ ∧
      (restorePersistedModels P w models).completedRounds = ∅ := by
  apply List.foldlRecOn models _ (motive := fun b : WeightBuffer F =>
    b.roundWeights = ∅ ∧ b.completedRounds = ∅) ⟨rfl, rfl⟩
  intro b hb model _
  split
  · exact hb
  · exact hb

theorem restart_empty {P : Primitives} {start : Start} (h : restart P s start = some s') :
    s'.world.buffer.roundWeights = ∅ ∧ s'.world.buffer.completedRounds = ∅ ∧ submitting s' = none ∧
      s'.history = [] ∧ s'.events = s.events := by
  obtain ⟨w, hw, rfl⟩ := Option.map_eq_some_iff.mp h
  obtain ⟨keys, -, rfl⟩ := Option.map_eq_some_iff.mp hw
  have hempty := restorePersistedModels_empty (F := F) P
  exact ⟨(hempty _ _).1, (hempty _ _).2, rfl, rfl, List.append_nil _⟩

/-- The events of a step of a submission, by the point it is at. -/
inductive Observed (s : Server F) (q : SubmitWeightsRequest) (n : ℕ) : SubmitPoint F → Event F → Prop
  | refusedCompleted {current : ℤ} {job : Option PersistedTrainingJobRecord}
      (hcompleted : requestKey q ∈ s.world.buffer.completedRounds) :
      Observed s q n (.roundCheck current job) (.refusedCompleted (job.map (·.jobId)))
  | refusedDuplicate {current : ℤ} {job : Option PersistedTrainingJobRecord}
      (hpending : q.clientId ∈ submissions s.world.buffer (requestKey q)) :
      Observed s q n (.duplicateCheck current job)
        (.refusedDuplicate (job.map (·.jobId)) (s.origin (requestKey q) q.clientId))
  | recorded {job : Option PersistedTrainingJobRecord} {p : Prepared F} {keyVersion : ℤ} :
      Observed s q n (.record job p keyVersion) (.recorded (requestScope q).1 (requestScope q).2
        q.roundIndex (nextVersion s.world.store.models (requestScope q).1 (requestScope q).2) p.result)
  | aggregated {job : Option PersistedTrainingJobRecord} {p : Prepared F} {modelVersion : ℤ} :
      Observed s q n (.publish job p modelVersion) (.aggregated (requestScope q).1 (requestScope q).2
        q.roundIndex (contributors s (requestKey q)) n (activeJobId s.world.store q))
  | accepted {job : PersistedTrainingJobRecord} {result : AggregationAttemptResult} :
      Observed s q n (.accept job result) (.accepted n q.roundIndex (namedLease s.world.store q))
  | advanced {job : PersistedTrainingJobRecord} {result : AggregationAttemptResult} :
      Observed s q n (.advance job result) (.advanced n q.roundIndex (activeJobId s.world.store q))
  | answered {text response : SubmitWeightsResponse} {countClients : Bool}
      (hverdict : response.accepted = text.accepted) :
      Observed s q n (.respond text countClients) (.answered n (requestScope q).1 (requestScope q).2
        q.clientId q.roundIndex response)

theorem observe_observed {q : SubmitWeightsRequest} {peer : Peer} {n : ℕ} {o : Oracle F}
    {p : SubmitPoint F} {e : Event F} (h : e ∈ observe d s q peer n o p) : Observed s q n p e := by
  cases p with
  | roundCheck current job =>
    simp only [observe] at h
    split at h
    · rename_i hcompleted
      rw [List.mem_singleton.mp h]
      exact .refusedCompleted (by simpa [isRoundCompleted, requestKey] using hcompleted)
    · cases h
  | duplicateCheck current job =>
    simp only [observe] at h
    split at h
    · rename_i hpending
      rw [hasClientSubmission_eq, AList.lookup_isSome] at hpending
      rw [List.mem_singleton.mp h]
      exact .refusedDuplicate hpending
    · cases h
  | record job pr keyVersion =>
    rw [List.mem_singleton.mp h]
    exact .recorded
  | publish job pr modelVersion =>
    rw [List.mem_singleton.mp h]
    exact .aggregated
  | accept job result =>
    simp only [observe] at h
    split at h
    · cases h
    · rw [List.mem_singleton.mp h]
      exact .accepted
  | advance job result =>
    rw [List.mem_singleton.mp h]
    exact .advanced
  | respond text countClients =>
    rw [List.mem_singleton.mp h]
    exact .answered rfl
  | _ => cases h

/-- What a step adds to the history: what a submission observes, the passing of
the identity check, or restored models. -/
inductive NewEvent (s : Server F) (a : Action F) (e : Event F) : Prop
  | restored {t m : String} {v : ℤ} {w : List F} (he : e = .restored t m v w)
  | passed {t m c p : String} (he : e = .passed t m c p)
  | observed {c : Submitting F} {o : Oracle F} (hact : a = .proceed o) (hc : submitting s = some c)
      (he : Observed s c.q c.serial c.point e)

theorem step_history (h : step d s a = some s') :
    (∃ es, s'.history = s.history ++ es ∧ s'.past = s.past ∧ ∀ e ∈ es, NewEvent s a e) ∨
      (s'.history = [] ∧ s'.past = s.events) := by
  cases step_jobStep h with
  | moved _ _ hsame _ _ =>
    obtain ⟨es, hes, hrestored⟩ := hsame.history
    refine .inl ⟨es, hes, hsame.past, fun e he => ?_⟩
    obtain ⟨t, m, v, w, rfl⟩ := hrestored e he
    exact .restored rfl
  | create _ => exact .inl ⟨[], (List.append_nil _).symm, rfl, by simp⟩
  | submit _ =>
    refine .inl ⟨_, rfl, rfl, fun e he => ?_⟩
    split at he
    · exact .passed (List.mem_singleton.mp he)
    · cases he
  | @proceed c o hc =>
    exact .inl ⟨_, rfl, rfl, fun e he => .observed rfl hc (observe_observed he)⟩
  | restart hrestart =>
    obtain ⟨w, -, rfl⟩ := Option.map_eq_some_iff.mp hrestart
    exact .inr ⟨rfl, rfl⟩

theorem step_events (h : step d s a = some s') {e : Event F} (he : e ∈ s'.events) :
    e ∈ s.events ∨ NewEvent s a e := by
  rcases step_history h with ⟨es, hhistory, hpast, hadded⟩ | ⟨hhistory, hpast⟩
  · rw [Server.events, hhistory, hpast, ← List.append_assoc] at he
    exact (List.mem_append.mp he).imp id (hadded e)
  · rw [Server.events, hhistory, hpast, List.append_nil] at he
    exact .inl he

end PqFl.SubmissionTracking
