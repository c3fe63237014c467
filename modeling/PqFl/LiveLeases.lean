import PqFl.JobLifecycle
import PqFl.WorkerSteps

/-!
# Live leases

A client has at most one lease for a job and a round at a time, and gets that
one back as long as it is live. Both rest on the sweep which every request for
a lease starts with: what is leased after it has not run out.
-/

set_option autoImplicit false

namespace PqFl.LiveLeases
open PqFl.Identifiers PqFl.Timestamps PqFl.StoreRecords PqFl.StateStore PqFl.ListUpdate
open PqFl.JobLedger PqFl.StoreRuns PqFl.Runs PqFl.JobLifecycle PqFl.LeaseLifecycle PqFl.WorkerSteps

inductive AssignmentMove (s : StateStore) (now : ℕ) (op : Operation) (x : PersistedAssignmentLease) :
    PersistedAssignmentLease → Prop
  | same : AssignmentMove s now op x x
  | swept : AssignmentMove s now op x (lapse (currentTimestamp now) x)
  | submitted (hleased : x.status = .leased) :
      AssignmentMove s now op x (submitAssignment (currentTimestamp now) x)
  | closed {t m : String} {r v : ℤ} {job : PersistedTrainingJobRecord}
      (hop : op = .advanceTrainingJobRound t m r v) (hjob : getActiveTrainingJob s t m = some job) :
      AssignmentMove s now op x (closeAssignment job.jobId r (currentTimestamp now) x)

theorem perform_moves (s : StateStore) (now : ℕ) (op : Operation) :
    ∃ mid granted, (perform s now op).store.assignments = mid ++ granted ∧
      List.Forall₂ (AssignmentMove s now op) s.assignments mid ∧
      ∀ a ∈ granted, Grants s now op a := by
  have hsame : ∀ l, l = s.assignments → ∃ mid granted, l = mid ++ granted ∧
      List.Forall₂ (AssignmentMove s now op) s.assignments mid ∧
      ∀ a ∈ granted, Grants s now op a := by
    intro l hl
    exact ⟨s.assignments, [], by rw [List.append_nil, hl],
      List.forall₂_same.mpr (fun _ _ => .same), by simp⟩
  have hstep := perform_taskStep s now op
  generalize (perform s now op).store = s' at hstep ⊢
  cases hstep with
  | kept hassignments htasks hworkers => exact hsame _ hassignments
  | swept hop granted hgranted hassignments htasks hworkers =>
    exact ⟨_, granted, hassignments, forall₂_map _ (fun _ => .swept) _, hgranted⟩
  | @accepted t m c jobId id r v s' x hcheck hfound hleased hassignments htasks hworkers =>
    refine ⟨_, [], (List.append_nil _).symm, ?_, by simp⟩
    rw [hassignments]
    have hswept := forall₂_map (R := fun y z => z = lapse (currentTimestamp now) y)
      (lapse (currentTimestamp now)) (fun _ => rfl) s.assignments
    have hupdate : List.Forall₂ (fun y z => z = y ∨ (y = x ∧
        z = submitAssignment (currentTimestamp now) x)) (s.assignments.map
          (lapse (currentTimestamp now))) (updateFirst (fun a => a.assignmentId == id)
            (submitAssignment (currentTimestamp now)) (s.assignments.map
              (lapse (currentTimestamp now)))) :=
      updateFirst_forall₂ (fun _ => .inl rfl) hfound (.inr ⟨rfl, rfl⟩)
    refine forall₂_trans ?_ hswept hupdate
    rintro y z w rfl (rfl | ⟨hyx, rfl⟩)
    · exact .swept
    · have hy : (lapse (currentTimestamp now) y).status = .leased := by rw [hyx, hleased]
      rw [leased_before_sweep hy] at hyx
      rw [hyx]
      exact .submitted hleased
  | advanced hjob hassignments htasks hworkers =>
    refine ⟨_, [], (List.append_nil _).symm, ?_, by simp⟩
    rw [hassignments]
    exact forall₂_map _ (fun _ => .closed rfl hjob) _
  | added hnew hassignments htasks hworkers => exact hsame _ hassignments
  | registeredAgain hknown hassignments htasks hworkers => exact hsame _ hassignments
  | leasedAgain hknown hassignments htasks hworkers => exact hsame _ hassignments
  | leased hnew hassignments htasks hworkers => exact hsame _ hassignments
  | reported hfound hown hassignments htasks hworkers => exact hsame _ hassignments
  | beat hassignments htasks hworkers => exact hsame _ hassignments

theorem perform_moves_only {s : StateStore} {now : ℕ} {op : Operation}
    (hlease : ∀ t m c v n ttl, op ≠ .leaseTrainingAssignment t m c v n ttl) :
    List.Forall₂ (AssignmentMove s now op) s.assignments (perform s now op).store.assignments := by
  obtain ⟨mid, granted, hl, hmoves, hgranted⟩ := perform_moves s now op
  have hnone : granted = [] := by
    apply List.eq_nil_iff_forall_not_mem.mpr
    intro a ha
    have hgrants := hgranted a ha
    cases op with
    | leaseTrainingAssignment t m c v n ttl => exact hlease t m c v n ttl rfl
    | _ => exact hgrants
  rw [hl, hnone, List.append_nil]
  exact hmoves

theorem not_leased_again (status : AssignmentStatus) : ¬ StatusStep status .leased := by
  intro h
  cases h

theorem AssignmentMove.terms {s : StateStore} {now : ℕ} {op : Operation}
    {x y : PersistedAssignmentLease} (h : AssignmentMove s now op x y) :
    SameTerms x y ∧ (y.status = .leased → x.status = .leased) := by
  cases h with
  | same => exact ⟨.refl x, id⟩
  | swept =>
    refine ⟨(lapse_quiet _ x).terms, ?_⟩
    intro hleased
    rw [leased_before_sweep hleased] at hleased
    exact hleased
  | submitted hleased =>
    exact ⟨⟨rfl, rfl, rfl, rfl, rfl, rfl, rfl, rfl, rfl, rfl⟩, fun _ => hleased⟩
  | @closed t m r v job hop hjob =>
    refine ⟨(closeAssignment_quiet job.jobId r _ x).terms, ?_⟩
    intro hleased
    rcases (closeAssignment_quiet job.jobId r (currentTimestamp now) x).status with hsame | ⟨hstep, -⟩
    · rw [← hsame]
      exact hleased
    · rw [hleased] at hstep
      exact absurd hstep (not_leased_again _)

/-- The assignments of the client which a request finds live. -/
def isLiveLeaseOf (job : PersistedTrainingJobRecord) (clientId now : String)
    (a : PersistedAssignmentLease) : Bool :=
  isLiveLease job.jobId (max 1 job.currentRound) now a && a.clientId == clientId

/-- What a request for a lease comes to. -/
inductive LeaseOutcome (s : StateStore) (t m c : String) (v n ttl : ℤ) (now : ℕ) :
    Option LeasedAssignment → List PersistedAssignmentLease → Prop
  | refused (hwhy : ∀ job, getActiveTrainingJob s t m = some job →
        ¬ (job.targetRounds > 0 ∧ job.completedRounds ≥ job.targetRounds) →
        (s.assignments.map (lapse (currentTimestamp now))).find?
          (isLiveLeaseOf job c (currentTimestamp now)) = none ∧
        roundCapacity job n ≤ (((s.assignments.map (lapse (currentTimestamp now))).filter
          (isLiveLease job.jobId (max 1 job.currentRound) (currentTimestamp now))).length : ℤ)) :
      LeaseOutcome s t m c v n ttl now none (s.assignments.map (lapse (currentTimestamp now)))
  | again {job : PersistedTrainingJobRecord} {x : PersistedAssignmentLease}
      {dataset : PersistedDatasetRecord} (hjob : getActiveTrainingJob s t m = some job)
      (hopen : ¬ (job.targetRounds > 0 ∧ job.completedRounds ≥ job.targetRounds))
      (hlive : (s.assignments.map (lapse (currentTimestamp now))).find?
        (isLiveLeaseOf job c (currentTimestamp now)) = some x) :
      LeaseOutcome s t m c v n ttl now
        (some ⟨x, runningJob (currentTimestamp now) job, dataset⟩)
        (s.assignments.map (lapse (currentTimestamp now)))
  | fresh {job : PersistedTrainingJobRecord} {dataset : PersistedDatasetRecord}
      (hjob : getActiveTrainingJob s t m = some job)
      (hopen : ¬ (job.targetRounds > 0 ∧ job.completedRounds ≥ job.targetRounds))
      (hnone : (s.assignments.map (lapse (currentTimestamp now))).find?
        (isLiveLeaseOf job c (currentTimestamp now)) = none)
      (hroom : (((s.assignments.map (lapse (currentTimestamp now))).filter
        (isLiveLease job.jobId (max 1 job.currentRound) (currentTimestamp now))).length : ℤ) <
          roundCapacity job n) :
      LeaseOutcome s t m c v n ttl now
        (some ⟨newLease job t m c v ttl now, runningJob (currentTimestamp now) job, dataset⟩)
        (s.assignments.map (lapse (currentTimestamp now)) ++ [newLease job t m c v ttl now])

theorem runningJob_fields (now : String) (job : PersistedTrainingJobRecord) :
    (runningJob now job).jobId = job.jobId ∧ (runningJob now job).currentRound = job.currentRound ∧
      ∀ n, roundCapacity (runningJob now job) n = roundCapacity job n := by
  unfold runningJob
  split
  · exact ⟨rfl, rfl, fun _ => rfl⟩
  · exact ⟨rfl, rfl, fun _ => rfl⟩

theorem lease_outcome (s : StateStore) (t m c : String) (v n ttl : ℤ) (now : ℕ) :
    LeaseOutcome s t m c v n ttl now (leaseTrainingAssignment s t m c v n ttl now).value
      (leaseTrainingAssignment s t m c v n ttl now).store.assignments := by
  have hswept := (expireAssignmentsLocked_frame s (currentTimestamp now)).2.1
  have hactive := getActive_expire s (currentTimestamp now) t m
  unfold leaseTrainingAssignment
  dsimp only
  generalize expireAssignmentsLocked s (currentTimestamp now) = swept at *
  split
  · rename_i hnone
    rw [hactive] at hnone
    rw [hswept]
    apply LeaseOutcome.refused
    intro job hjob
    rw [hnone] at hjob
    cases hjob
  rename_i job hjob
  rw [hactive] at hjob
  have hthis : ∀ {j}, getActiveTrainingJob s t m = some j → j = job := by
    intro j hj
    exact Option.some.inj (hj.symm.trans hjob)
  split
  · rename_i hclosed
    simp only [updateActiveTrainingJob, hswept]
    apply LeaseOutcome.refused
    intro j hj hopen
    rw [hthis hj] at hopen
    exact absurd hclosed hopen
  rename_i hopen
  obtain ⟨hid, hround, hcapacity⟩ := runningJob_fields (currentTimestamp now) job
  unfold grantLease
  simp only [hid, hround, hcapacity, newLease_runningJob]
  split
  · rename_i x hx
    simp only [updateActiveTrainingJob, hswept] at hx ⊢
    exact .again hjob hopen hx
  · rename_i hnone
    simp only [updateActiveTrainingJob, hswept] at hnone ⊢
    split
    · rename_i hfull
      apply LeaseOutcome.refused
      intro j hj _
      rw [hthis hj]
      exact ⟨hnone, hfull⟩
    · rename_i hroom
      rw [(pushAuditEvent_frame _ _).2.1]
      exact .fresh hjob hopen hnone (not_le.mp hroom)

def isLeaseOf (jobId clientId : String) (round : ℤ) (a : PersistedAssignmentLease) : Bool :=
  a.jobId == jobId && a.clientId == clientId && a.roundIndex == round && a.status == .leased

theorem isLeaseOf_iff {jobId clientId : String} {round : ℤ} {a : PersistedAssignmentLease} :
    isLeaseOf jobId clientId round a = true ↔ a.jobId = jobId ∧ a.clientId = clientId ∧
      a.roundIndex = round ∧ a.status = .leased := by
  simp [isLeaseOf, and_assoc]

def OneLease (l : List PersistedAssignmentLease) : Prop :=
  ∀ jobId clientId round, AtMostOne (isLeaseOf jobId clientId round) l

theorem OneLease.moved {l l' : List PersistedAssignmentLease} (h : OneLease l)
    (hmoved : List.Forall₂ (fun x y => SameTerms x y ∧ (y.status = .leased → x.status = .leased))
      l l') : OneLease l' := by
  intro jobId clientId round
  apply AtMostOne.of_forall₂ _ hmoved (h jobId clientId round)
  rintro x y ⟨hterms, hleased⟩ hy
  obtain ⟨hjob, hclient, hround, hstatus⟩ := isLeaseOf_iff.mp hy
  exact isLeaseOf_iff.mpr ⟨hterms.jobId.symm.trans hjob, hterms.clientId.symm.trans hclient,
    hterms.roundIndex.symm.trans hround, hleased hstatus⟩

theorem lapse_terms (now : String) (x : PersistedAssignmentLease) :
    SameTerms x (lapse now x) ∧ ((lapse now x).status = .leased → x.status = .leased) := by
  refine ⟨(lapse_quiet now x).terms, ?_⟩
  intro hleased
  rw [leased_before_sweep hleased] at hleased
  exact hleased

theorem live_of_leased {now : String} {x : PersistedAssignmentLease} (hdated : Dated x)
    (hleased : (lapse now x).status = .leased) : now < x.expiresAt := by
  have hsame := leased_before_sweep hleased
  rw [hsame] at hleased
  have hlapsed := swept_not_lapsed now x
  rw [hsame] at hlapsed
  obtain ⟨deadline, hdeadline⟩ := hdated
  have hne : x.expiresAt ≠ "" := by
    rw [hdeadline]
    exact currentTimestamp_ne_empty deadline
  simpa [hasLapsed, hleased, hne] using hlapsed

theorem isLiveLeaseOf_iff {job : PersistedTrainingJobRecord} {c now : String}
    {a : PersistedAssignmentLease} : isLiveLeaseOf job c now a = true ↔
      isLeaseOf job.jobId c (max 1 job.currentRound) a = true ∧ now < a.expiresAt := by
  rw [isLeaseOf_iff]
  simp only [isLiveLeaseOf, isLiveLease, Bool.and_eq_true, beq_iff_eq, decide_eq_true_eq]
  tauto

theorem lease_oneLease {s : StateStore} (h : OneLease s.assignments)
    (hdated : ∀ x ∈ s.assignments, Dated x) (t m c : String) (v n ttl : ℤ) (now : ℕ) :
    OneLease (leaseTrainingAssignment s t m c v n ttl now).store.assignments := by
  have hswept := h.moved (forall₂_map _ (lapse_terms (currentTimestamp now)) _)
  have houtcome := lease_outcome s t m c v n ttl now
  generalize (leaseTrainingAssignment s t m c v n ttl now).value = value at houtcome
  generalize (leaseTrainingAssignment s t m c v n ttl now).store.assignments = l at houtcome ⊢
  cases houtcome with
  | refused hwhy => exact hswept
  | again hjob hopen hlive => exact hswept
  | @fresh job dataset hjob hopen hnone hroom =>
    intro jobId clientId round
    apply List.pairwise_append.mpr
    refine ⟨hswept jobId clientId round, List.pairwise_singleton _ _, ?_⟩
    rintro x hx y hy ⟨hxleased, hyleased⟩
    obtain rfl := List.mem_singleton.mp hy
    obtain ⟨rfl, rfl, rfl, -⟩ := isLeaseOf_iff.mp hyleased
    -- a lease of the client which the sweep left would have been found
    have hfound : isLiveLeaseOf job c (currentTimestamp now) x = true := by
      obtain ⟨z, hz, rfl⟩ := List.mem_map.mp hx
      have hleased := (isLeaseOf_iff.mp hxleased).2.2.2
      refine isLiveLeaseOf_iff.mpr ⟨hxleased, ?_⟩
      rw [leased_before_sweep hleased]
      exact live_of_leased (hdated z hz) hleased
    have hnot := List.find?_eq_none.mp hnone x hx
    exact hnot hfound

theorem perform_oneLease {s : StateStore} (h : OneLease s.assignments)
    (hdated : ∀ x ∈ s.assignments, Dated x) (now : ℕ) (op : Operation) :
    OneLease (perform s now op).store.assignments := by
  by_cases hlease : ∃ t m c v n ttl, op = .leaseTrainingAssignment t m c v n ttl
  · obtain ⟨t, m, c, v, n, ttl, rfl⟩ := hlease
    exact lease_oneLease h hdated t m c v n ttl now
  · have hother : ∀ t m c v n ttl, op ≠ .leaseTrainingAssignment t m c v n ttl :=
      fun t m c v n ttl heq => hlease ⟨t, m, c, v, n, ttl, heq⟩
    have hmoves : List.Forall₂ (AssignmentMove s now op) s.assignments
        (perform s now op).store.assignments := perform_moves_only hother
    exact h.moved (hmoves.imp (fun _ _ hmove => hmove.terms))

/-- Memory and file both have one lease at a time. -/
structure OneLeaseEach (p : StoreProcess) : Prop where
  store : OneLease p.store.assignments
  disk : OneLease p.disk.assignments

theorem run_oneLease {n : ℕ} {p : StoreProcess} (h : Reaches step Timely (initial n) p) :
    OneLeaseEach p := by
  have hboth : RunFacts p ∧ OneLeaseEach p := by
    induction h with
    | start => exact ⟨run_facts .start, ⟨fun _ _ _ => .nil, fun _ _ _ => .nil⟩⟩
    | @next q q' a hrun ha hs ih =>
      obtain ⟨hfacts, hone⟩ := ih
      refine ⟨run_facts (hrun.next ha hs), ?_⟩
      cases a with
      | perform op now =>
        obtain rfl := Option.some.inj hs
        have hstore := perform_oneLease hone.store hfacts.dated now op
        exact ⟨hstore, step_onDisk (I := fun s => OneLease s.assignments) hs hstore hone.disk⟩
      | load now =>
        obtain rfl := Option.some.inj hs
        have hloaded : OneLease (StateStore.load q.disk now).store.assignments := by
          rw [(load_fields hfacts.backed.disk now).2.2.2.2.2.2]
          exact hone.disk.moved (forall₂_map _ (lapse_terms _) _)
        exact ⟨hloaded, hloaded⟩
  exact hboth.2

/-- An active job which is not at its target. -/
def Unfinished (j : PersistedTrainingJobRecord) : Prop :=
  isActiveJobStatus j.status = true → ¬ (j.targetRounds > 0 ∧ j.completedRounds ≥ j.targetRounds)

structure JobFollows (j j' : PersistedTrainingJobRecord) : Prop where
  same : JobSame j j'
  unfinished : Unfinished j → Unfinished j'

theorem JobFollows.refl (j : PersistedTrainingJobRecord) : JobFollows j j :=
  ⟨⟨rfl, rfl, rfl, id⟩, id⟩

theorem JobFollows.trans {i j k : PersistedTrainingJobRecord} (h : JobFollows i j)
    (h' : JobFollows j k) : JobFollows i k where
  same := ⟨h'.same.jobId.trans h.same.jobId, h'.same.tenantId.trans h.same.tenantId,
    h'.same.modelId.trans h.same.modelId, fun hactive => h.same.active (h'.same.active hactive)⟩
  unfinished hopen := h'.unfinished (h.unfinished hopen)

theorem runningJob_follows (now : String) {j : PersistedTrainingJobRecord}
    (hactive : isActiveJobStatus j.status = true) : JobFollows j (runningJob now j) := by
  unfold runningJob
  split
  · exact ⟨⟨rfl, rfl, rfl, fun _ => hactive⟩, fun hopen _ => hopen hactive⟩
  · exact .refl j

theorem supersede_follows (t m : String) (j : PersistedTrainingJobRecord) :
    JobFollows j (supersede t m j) := by
  refine ⟨supersede_same t m j, ?_⟩
  unfold supersede
  split
  · intro _ hactive
    cases hactive
  · exact id

theorem advanceJob_follows (now : String) (r v : ℤ) {j : PersistedTrainingJobRecord}
    (hactive : isActiveJobStatus j.status = true) : JobFollows j (advanceJob now r v j) := by
  refine ⟨⟨rfl, rfl, rfl, fun _ => hactive⟩, ?_⟩
  intro _ hlater htarget
  simp only [advanceJob] at hlater htarget
  rw [if_pos htarget] at hlater
  cases hlater

theorem perform_jobFollows (s : StateStore) (now : ℕ) (op : Operation) :
    Grown JobFollows s.trainingJobs (perform s now op).store.trainingJobs := by
  have hstep := perform_jobs s now op
  generalize (perform s now op).store.trainingJobs = jobs at hstep ⊢
  cases hstep with
  | turned h =>
    apply Grown.of_forall₂
    apply h.imp
    intro j j' hturned
    cases hturned with
    | same => exact .refl j
    | running hactive => exact runningJob_follows _ hactive
    | atTarget hactive htarget =>
      refine ⟨⟨rfl, rfl, rfl, fun _ => hactive⟩, ?_⟩
      intro _ hlater
      cases hlater
  | created =>
    exact ⟨_, _, rfl, forall₂_map _ (supersede_follows _ _) _⟩
  | advanced hactive h =>
    apply Grown.of_forall₂
    apply h.imp
    rintro j j' (rfl | ⟨rfl, rfl⟩)
    · exact .refl j'
    · exact advanceJob_follows _ _ _ hactive

theorem run_jobFollows {n : ℕ} {ok : StoreProcess → StoreAction → Prop} {p q : StoreProcess}
    (h : Reaches step Free (initial n) p) (hrun : Reaches step ok p q) :
    Grown JobFollows p.store.trainingJobs q.store.trainingJobs := by
  have hboth : Backed q ∧ Grown JobFollows p.store.trainingJobs q.store.trainingJobs := by
    induction hrun with
    | start => exact ⟨run_backed h, .refl JobFollows.refl _⟩
    | @next q q' a hrun ha hs ih =>
      obtain ⟨hbacked, hgrown⟩ := ih
      refine ⟨step_backed hbacked hs, ?_⟩
      apply hgrown.trans (fun _ _ _ hij hjk => hij.trans hjk)
      rcases step_cases hs with ⟨op, now, -, hstore, -⟩ | ⟨now, -, hstore, -⟩
      · rw [hstore]
        exact perform_jobFollows _ _ _
      · rw [hstore, (load_backed hbacked now).2.2]
        exact .refl JobFollows.refl _
  exact hboth.2

/-- The job at this place is active at the round of the given one. -/
def StaysAt (k : ℕ) (job : PersistedTrainingJobRecord) (s : StateStore) : Prop :=
  ∃ j, s.trainingJobs[k]? = some j ∧ isActiveJobStatus j.status = true ∧
    j.currentRound = job.currentRound

/-- The round of the assignment is not closed by a job of another scope which has
the same identifier. -/
def NoNamesake (x : PersistedAssignmentLease) (job : PersistedTrainingJobRecord) (s : StateStore) :
    StoreAction → Prop
  | .perform (.advanceTrainingJobRound t m r _) _ => ∀ j, getActiveTrainingJob s t m = some j →
      j.jobId = x.jobId → r = x.roundIndex → j.tenantId = job.tenantId ∧ j.modelId = job.modelId
  | _ => True

/-- The steps in between: the clock does not go back, the job stays active at
its round, and no namesake closes it. -/
def Undisturbed (k : ℕ) (job : PersistedTrainingJobRecord) (x : PersistedAssignmentLease)
    (p : StoreProcess) (a : StoreAction) : Prop :=
  Timely p a ∧ StaysAt k job p.store ∧ NoNamesake x job p.store a

/-- A status which a lease has that is neither expired nor missed. -/
def isUsed (status : AssignmentStatus) : Bool :=
  status == .leased || status == .submitted || status == .aggregated

theorem lapse_used {now : String} {y : PersistedAssignmentLease}
    (hlater : now < y.expiresAt) : lapse now y = y := by
  rcases lapse_cases now y with hsame | ⟨-, hpast, -⟩
  · exact hsame
  · exact absurd hpast (not_le.mpr hlater)

theorem closeAssignment_used {jobId now : String} {r : ℤ} {y : PersistedAssignmentLease}
    (hused : isUsed y.status = true) :
    isUsed (closeAssignment jobId r now y).status = true ∨
      (y.jobId = jobId ∧ y.roundIndex = r) := by
  by_cases hof : y.jobId = jobId ∧ y.roundIndex = r
  · exact .inr hof
  · left
    rw [closeAssignment, if_neg hof]
    exact hused

theorem advance_leaves_round {s : StateStore} (h : Orderly s) {k : ℕ}
    {job j : PersistedTrainingJobRecord} {t m : String}
    (hk : s.trainingJobs[k]? = some j) (hactive : isActiveJobStatus j.status = true)
    (htenant : j.tenantId = normalizeTenant t)
    (hmodel : j.modelId = normalizeModel m) (v : ℤ) (now : ℕ) :
    ¬ StaysAt k job (advanceTrainingJobRound s t m (max 1 job.currentRound) v now).store := by
  rintro ⟨j', hk', -, hround'⟩
  have hof : isActiveJobOf (normalizeTenant t) (normalizeModel m) j = true :=
    isActiveJobOf_iff.mpr ⟨htenant, hmodel, hactive⟩
  have hjob := h.active_unique (List.mem_of_getElem? hk) hof
  rw [(advance_some hjob _ v now).1, (h.oneActive _ _).updateLast_eq_map, List.getElem?_map, hk,
    Option.map_some, if_pos hof] at hk'
  obtain rfl := Option.some.inj hk'
  simp only [advanceJob] at hround'
  omega

/-- A lease of the client for the job, at its place. -/
structure LeaseAt (i : ℕ) (x : PersistedAssignmentLease) (s : StateStore) : Prop where
  used : ∃ y, s.assignments[i]? = some y ∧ SameTerms x y ∧ isUsed y.status = true

/-- The job of the lease. -/
structure JobOf (t m : String) (x : PersistedAssignmentLease) (job : PersistedTrainingJobRecord) :
    Prop where
  tenantId : job.tenantId = normalizeTenant t
  modelId : job.modelId = normalizeModel m
  jobId : x.jobId = job.jobId
  round : x.roundIndex = max 1 job.currentRound

theorem perform_leaseAt {s : StateStore} (ho : Orderly s) {t m : String} {i k : ℕ}
    {x : PersistedAssignmentLease} {job : PersistedTrainingJobRecord} (hof : JobOf t m x job)
    (hscope : ∀ j, s.trainingJobs[k]? = some j → JobFollows job j) {now : ℕ} {op : Operation}
    (hstays : StaysAt k job s) (hnamesake : NoNamesake x job s (.perform op now))
    (hstays' : StaysAt k job (perform s now op).store)
    (hlater : currentTimestamp now < x.expiresAt) (h : LeaseAt i x s) :
    LeaseAt i x (perform s now op).store := by
  obtain ⟨y, hy, hterms, hused⟩ := h.used
  obtain ⟨mid, granted, hl, hmoves, -⟩ := perform_moves s now op
  obtain ⟨z, hz, hmove⟩ := Grown.getElem? ⟨mid, granted, hl, hmoves⟩ hy
  refine ⟨z, hz, hterms.trans hmove.terms.1, ?_⟩
  cases hmove with
  | same => exact hused
  | swept =>
    rw [← hterms.expiresAt] at hlater
    rw [lapse_used hlater]
    exact hused
  | submitted hleased => rfl
  | @closed t' m' r v closing hop hclosing =>
    have hclosed := @closeAssignment_used closing.jobId (currentTimestamp now) r _ hused
    rcases hclosed with hkept | ⟨hjobId, hround⟩
    · exact hkept
    · exfalso
      rw [hterms.jobId] at hjobId
      rw [hterms.roundIndex] at hround
      subst hop hround
      obtain ⟨j, hk, hactive, -⟩ := hstays
      have hsame := (hscope j hk).same
      obtain ⟨htenant, hmodel⟩ := hnamesake closing hclosing hjobId.symm rfl
      obtain ⟨-, htenant', hmodel', -⟩ := getActive_mem hclosing
      rw [hof.round] at hstays'
      refine advance_leaves_round ho hk hactive ?_ ?_ v now hstays'
      · rw [hsame.tenantId, ← htenant, htenant']
      · rw [hsame.modelId, ← hmodel, hmodel']

theorem load_leaseAt {p : StoreProcess} (hb : Backed p) (hbehind : Behind p) {i : ℕ}
    {x : PersistedAssignmentLease} {now : ℕ} (hlater : currentTimestamp now < x.expiresAt)
    (h : LeaseAt i x p.store) : LeaseAt i x (StateStore.load p.disk now).store := by
  obtain ⟨y, hy, hterms, hused⟩ := h.used
  have hlength := hbehind.leases.length_eq
  have hlt : i < p.disk.assignments.length := by
    have hi := (List.getElem?_eq_some_iff.mp hy).1
    omega
  have hget : p.disk.assignments[i]? = some p.disk.assignments[i] := List.getElem?_eq_getElem hlt
  have hsame : p.disk.assignments[i] = y := by
    rcases forall₂_getElem? hbehind.leases hget hy with hsame | ⟨t, -, hlapse⟩
    · exact hsame.symm
    · rcases lapse_cases (currentTimestamp t) p.disk.assignments[i] with hkept | ⟨-, -, hexpired⟩
      · rw [hlapse, hkept]
      · rw [hlapse, hexpired] at hused
        cases hused
  refine ⟨y, ?_, hterms, hused⟩
  rw [(load_fields hb.disk now).2.2.2.2.2.2, List.getElem?_map, hget, hsame, Option.map_some,
    lapse_used (by rw [hterms.expiresAt]; exact hlater)]

theorem run_leaseAt {n : ℕ} {p q : StoreProcess} (h : Reaches step Timely (initial n) p)
    {t m : String} {i k : ℕ} {x : PersistedAssignmentLease} {job : PersistedTrainingJobRecord}
    (hof : JobOf t m x job) (hi : p.store.assignments[i]? = some x)
    (hleased : x.status = .leased) (hk : p.store.trainingJobs[k]? = some job)
    (hrun : Reaches step (Undisturbed k job x) p q) (hstays : StaysAt k job q.store)
    (hlater : currentTimestamp q.clock < x.expiresAt) : LeaseAt i x q.store := by
  have htimely : ∀ {p'}, Reaches step (Undisturbed k job x) p p' → Reaches step Timely p p' := by
    intro p' hp'
    induction hp' with
    | start => exact .start
    | next _ ha hs ih => exact ih.next ha.1 hs
  induction hrun with
  | start => exact ⟨x, hi, .refl x, by rw [hleased]; rfl⟩
  | @next q q' a hrun ha hs ih =>
    obtain ⟨⟨hle, hend⟩, hstaysHere, hnamesake⟩ := ha
    have hfacts := run_facts (h.trans (htimely hrun))
    have hclock : q'.clock = a.now := by
      cases a with
      | perform op now =>
        obtain rfl := Option.some.inj hs
        rfl
      | load now =>
        obtain rfl := Option.some.inj hs
        rfl
    rw [hclock] at hlater
    have hbefore := ih hstaysHere (lt_of_le_of_lt (currentTimestamp_mono hle hend) hlater)
    cases a with
    | perform op now =>
      obtain rfl := Option.some.inj hs
      apply perform_leaseAt hfacts.backed.store.order hof _ hstaysHere hnamesake hstays hlater hbefore
      intro j hj
      have hgrown := run_jobFollows (h.invariant .start (fun _ _ _ hr _ hs => hr.next trivial hs))
        hrun
      obtain ⟨j', hj', hfollows⟩ := hgrown.getElem? hk
      obtain rfl := Option.some.inj (hj.symm.trans hj')
      exact hfollows
    | load now =>
      obtain rfl := Option.some.inj hs
      exact load_leaseAt hfacts.backed hfacts.behind hlater hbefore

/-- What a request was given. -/
structure GivenTo (t m c : String) (s : StateStore) (leased : LeasedAssignment) : Prop where
  assignment : leased.assignment ∈ s.assignments
  job : leased.job ∈ s.trainingJobs
  jobOf : JobOf t m leased.assignment leased.job
  leasedTo : leased.assignment.clientId = c ∧ leased.assignment.status = .leased
  unfinished : Unfinished leased.job

theorem lease_job_mem {s : StateStore} {t m c : String} {v n ttl : ℤ} {now : ℕ}
    {leased : LeasedAssignment}
    (h : (leaseTrainingAssignment s t m c v n ttl now).value = some leased) :
    leased.job ∈ (leaseTrainingAssignment s t m c v n ttl now).store.trainingJobs := by
  unfold leaseTrainingAssignment at h ⊢
  dsimp only at h ⊢
  split at h
  · cases h
  rename_i job hjob
  split at h
  · cases h
  rename_i hopen
  rw [if_neg hopen]
  have hmem : runningJob (currentTimestamp now) job ∈ (updateActiveTrainingJob
      (expireAssignmentsLocked s (currentTimestamp now)) t m (fun _ =>
        runningJob (currentTimestamp now) job)).trainingJobs :=
    mem_updateLast (f := fun _ => runningJob (currentTimestamp now) job) hjob
  unfold grantLease at h ⊢
  dsimp only at h ⊢
  split at h
  · obtain rfl := Option.some.inj h
    exact hmem
  · split at h
    · cases h
    · rename_i hroom
      obtain rfl := Option.some.inj h
      rw [if_neg hroom, (pushAuditEvent_frame _ _).1]
      exact hmem

theorem running_unfinished {s : StateStore} {t m : String} {job : PersistedTrainingJobRecord}
    (hjob : getActiveTrainingJob s t m = some job)
    (hopen : ¬ (job.targetRounds > 0 ∧ job.completedRounds ≥ job.targetRounds)) (now : String) :
    (runningJob now job).tenantId = normalizeTenant t ∧
    (runningJob now job).modelId = normalizeModel m ∧ Unfinished (runningJob now job) := by
  obtain ⟨-, htenant, hmodel, hactive⟩ := getActive_mem hjob
  have hfollows := runningJob_follows now hactive
  exact ⟨hfollows.same.tenantId.trans htenant, hfollows.same.modelId.trans hmodel,
    hfollows.unfinished (fun _ => hopen)⟩

theorem LeaseOutcome.given {s : StateStore} {t m c : String} {v n ttl : ℤ} {now : ℕ}
    {leased : LeasedAssignment} {l : List PersistedAssignmentLease}
    (h : LeaseOutcome s t m c v n ttl now (some leased) l) :
    leased.assignment ∈ l ∧ JobOf t m leased.assignment leased.job ∧
      leased.assignment.clientId = c ∧ leased.assignment.status = .leased ∧
      Unfinished leased.job := by
  cases h with
  | @again job x dataset hjob hopen hlive =>
    obtain ⟨htenant, hmodel, hunfinished⟩ := running_unfinished hjob hopen (currentTimestamp now)
    obtain ⟨hid, hround, -⟩ := runningJob_fields (currentTimestamp now) job
    obtain ⟨hjobId, hclient, hroundIndex, hleased⟩ :=
      isLeaseOf_iff.mp (isLiveLeaseOf_iff.mp (List.find?_some hlive)).1
    refine ⟨List.mem_of_find?_eq_some hlive, ⟨htenant, hmodel, ?_, ?_⟩, hclient, hleased, hunfinished⟩
    · rw [hid]
      exact hjobId
    · rw [hround]
      exact hroundIndex
  | @fresh job dataset hjob hopen hnone hroom =>
    obtain ⟨htenant, hmodel, hunfinished⟩ := running_unfinished hjob hopen (currentTimestamp now)
    obtain ⟨hid, hround, -⟩ := runningJob_fields (currentTimestamp now) job
    refine ⟨List.mem_append_right _ (List.mem_singleton_self _), ⟨htenant, hmodel, hid.symm, ?_⟩, rfl,
      rfl, hunfinished⟩
    rw [hround]
    rfl

theorem lease_givenTo {s : StateStore} {t m c : String} {v n ttl : ℤ} {now : ℕ}
    {leased : LeasedAssignment}
    (h : (leaseTrainingAssignment s t m c v n ttl now).value = some leased) :
    GivenTo t m c (leaseTrainingAssignment s t m c v n ttl now).store leased := by
  have houtcome := lease_outcome s t m c v n ttl now
  rw [h] at houtcome
  obtain ⟨hmem, hof, hclient, hleased, hunfinished⟩ := houtcome.given
  exact ⟨hmem, lease_job_mem h, hof, ⟨hclient, hleased⟩, hunfinished⟩

/-- The request gives the assignment at this place, and no new one. -/
structure GivesAgain (s : StateStore) (i : ℕ) (x : PersistedAssignmentLease)
    (o : Outcome (Option LeasedAssignment)) : Prop where
  value : ∃ y job dataset, s.assignments[i]? = some y ∧ SameTerms x y ∧
    o.value = some ⟨y, job, dataset⟩
  noneIssued : o.store.assignments.length = s.assignments.length

theorem lease_again {s : StateStore} (ho : Orderly s) (hone : OneLease s.assignments)
    {t m c : String} {i : ℕ} {x y : PersistedAssignmentLease} {job : PersistedTrainingJobRecord}
    {k : ℕ} (hof : JobOf t m x job) (hclient : x.clientId = c)
    (hscope : ∀ j, s.trainingJobs[k]? = some j → JobFollows job j ∧ Unfinished j)
    (hstays : StaysAt k job s) (hy : s.assignments[i]? = some y) (hterms : SameTerms x y)
    (hleased : y.status = .leased) {now : ℕ} (hlater : currentTimestamp now < x.expiresAt)
    (v n ttl : ℤ) : GivesAgain s i x (leaseTrainingAssignment s t m c v n ttl now) := by
  obtain ⟨j, hk, hactive, hround⟩ := hstays
  obtain ⟨hfollows, hunfinished⟩ := hscope j hk
  have hjob : getActiveTrainingJob s t m = some j := by
    apply ho.active_unique (List.mem_of_getElem? hk)
    exact isActiveJobOf_iff.mpr ⟨hfollows.same.tenantId.trans hof.tenantId,
      hfollows.same.modelId.trans hof.modelId, hactive⟩
  have hthis : ∀ {j'}, getActiveTrainingJob s t m = some j' → j' = j := by
    intro j' hj'
    exact Option.some.inj (hj'.symm.trans hjob)
  -- the sweep leaves the lease, and the search finds it
  rw [← hterms.expiresAt] at hlater
  have hmem : y ∈ s.assignments.map (lapse (currentTimestamp now)) :=
    List.mem_map.mpr ⟨y, List.mem_of_getElem? hy, lapse_used hlater⟩
  have hlease : isLeaseOf j.jobId c (max 1 j.currentRound) y = true := by
    refine isLeaseOf_iff.mpr ⟨?_, ?_, ?_, hleased⟩
    · rw [hterms.jobId, hof.jobId, hfollows.same.jobId]
    · rw [hterms.clientId, hclient]
    · rw [hterms.roundIndex, hof.round, hround]
  have hlive : isLiveLeaseOf j c (currentTimestamp now) y = true :=
    isLiveLeaseOf_iff.mpr ⟨hlease, hlater⟩
  have houtcome := lease_outcome s t m c v n ttl now
  have hlength : ∀ value l, LeaseOutcome s t m c v n ttl now value l →
      (∃ job dataset, value = some ⟨y, job, dataset⟩) ∧ l.length = s.assignments.length := by
    intro value l hcase
    cases hcase with
    | refused hwhy =>
      have hnot := List.find?_eq_none.mp (hwhy j hjob (hunfinished hactive)).1 y hmem
      exact absurd hlive hnot
    | again hjob' hopen hfound =>
      rw [hthis hjob'] at hfound
      have hswept := hone.moved (forall₂_map _ (lapse_terms (currentTimestamp now)) _)
      have hfoundLive := (isLiveLeaseOf_iff.mp (List.find?_some hfound)).1
      obtain rfl := (hswept _ _ _).mem_unique (List.mem_of_find?_eq_some hfound) hmem hfoundLive hlease
      exact ⟨⟨_, _, rfl⟩, List.length_map _⟩
    | fresh hjob' hopen hnone hroom =>
      rw [hthis hjob'] at hnone
      exact absurd hlive (List.find?_eq_none.mp hnone y hmem)
  obtain ⟨⟨job', dataset, hvalue⟩, hsame⟩ := hlength _ _ houtcome
  exact ⟨⟨y, job', dataset, hy, hterms, hvalue⟩, hsame⟩

/-- The moment of the second request: the lease is neither over nor submitted,
and the job is where it was. -/
structure StillLive (i k : ℕ) (x : PersistedAssignmentLease) (job : PersistedTrainingJobRecord)
    (q : StoreProcess) (now : ℕ) : Prop where
  clock : q.clock ≤ now ∧ now < clockEnd
  job : StaysAt k job q.store
  notOver : currentTimestamp now < x.expiresAt
  notSubmitted : ∀ y, q.store.assignments[i]? = some y →
    y.status ≠ .submitted ∧ y.status ≠ .aggregated

/-- A client has one lease for a job and round at a time. The lease it was given
is given to it again, unless a job of another scope with the same identifier
closes its round. -/
theorem one_live_lease (auditRetention : ℕ) (p : StoreProcess)
    (h : Reaches step Timely (initial auditRetention) p) :
    OneLease p.store.assignments ∧
    ∀ t m c v n ttl now x job dataset p',
      Timely p (.perform (.leaseTrainingAssignment t m c v n ttl) now) →
      (leaseTrainingAssignment p.store t m c v n ttl now).value = some ⟨x, job, dataset⟩ →
      step p (.perform (.leaseTrainingAssignment t m c v n ttl) now) = some p' →
      ∃ i k, p'.store.assignments[i]? = some x ∧ p'.store.trainingJobs[k]? = some job ∧
        ∀ q, Reaches step (Undisturbed k job x) p' q →
          ∀ v' n' ttl' now', StillLive i k x job q now' →
            GivesAgain q.store i x (leaseTrainingAssignment q.store t m c v' n' ttl' now') := by
  refine ⟨(run_oneLease h).store, ?_⟩
  intro t m c v n ttl now x job dataset p' htimely hvalue hs
  have hp' : Reaches step Timely (initial auditRetention) p' := h.next htimely hs
  obtain rfl := Option.some.inj hs
  obtain ⟨hmem, hjobMem, hof, ⟨hclient, hleased⟩, hunfinished⟩ := lease_givenTo hvalue
  obtain ⟨i, hi⟩ := List.mem_iff_getElem?.mp hmem
  obtain ⟨k, hk⟩ := List.mem_iff_getElem?.mp hjobMem
  refine ⟨i, k, hi, hk, ?_⟩
  intro q hrun v' n' ttl' now' hlive
  have hq : Reaches step Timely (initial auditRetention) q := by
    apply hp'.trans
    exact hrun.invariant (I := fun q => Reaches step Timely _ q) .start
      (fun _ _ _ hr ha hs => hr.next ha.1 hs)
  have hgrown := run_jobFollows (hp'.invariant .start (fun _ _ _ hr _ hs => hr.next trivial hs)) hrun
  have hbefore : currentTimestamp q.clock < x.expiresAt :=
    lt_of_le_of_lt (currentTimestamp_mono hlive.clock.1 hlive.clock.2) hlive.notOver
  obtain ⟨y, hy, hterms, hused⟩ := (run_leaseAt hp' hof hi hleased hk hrun hlive.job hbefore).used
  have hstill : y.status = .leased := by
    obtain ⟨hsubmitted, haggregated⟩ := hlive.notSubmitted y hy
    cases hstatus : y.status with
    | leased => rfl
    | submitted => exact absurd hstatus hsubmitted
    | aggregated => exact absurd hstatus haggregated
    | missed => simp [hstatus, isUsed] at hused
    | expired => simp [hstatus, isUsed] at hused
  apply lease_again (run_facts hq).backed.store.order (run_oneLease hq).store hof hclient _ hlive.job
    hy hterms hstill hlive.notOver
  intro j hj
  obtain ⟨j', hj', hfollows⟩ := hgrown.getElem? hk
  obtain rfl := Option.some.inj (hj.symm.trans hj')
  exact ⟨hfollows, hfollows.unfinished hunfinished⟩

def sharedJob (tenantId modelId : String) : PersistedTrainingJobRecord :=
  ⟨"", tenantId, modelId, "d", 3, 2, 1, 30, .planned, 1, 0, 0, "", "", ""⟩

def isAt (k : ℕ) (job : PersistedTrainingJobRecord) (s : StateStore) : Bool :=
  s.trainingJobs[k]?.any (fun j =>
    isActiveJobStatus j.status && j.currentRound == job.currentRound)

theorem staysAt_of_isAt {k : ℕ} {job : PersistedTrainingJobRecord} {s : StateStore}
    (h : isAt k job s = true) : StaysAt k job s := by
  rw [isAt, Option.any_eq_true] at h
  obtain ⟨j, hj, hmatch⟩ := h
  simp only [Bool.and_eq_true, beq_iff_eq] at hmatch
  exact ⟨j, hj, hmatch.1, hmatch.2⟩

/-- The conditions on a step, checked for steps which advance no round. -/
def staysQuiet (k : ℕ) (job : PersistedTrainingJobRecord) (p : StoreProcess) (a : StoreAction) :
    Bool :=
  decide (Timely p a) && isAt k job p.store && (match a with
    | .perform (.advanceTrainingJobRound _ _ _ _) _ => false
    | _ => true)

theorem undisturbed_of_staysQuiet {k : ℕ} {job : PersistedTrainingJobRecord}
    (x : PersistedAssignmentLease) (p : StoreProcess) (a : StoreAction)
    (h : staysQuiet k job p a = true) : Undisturbed k job x p a := by
  simp only [staysQuiet, Bool.and_eq_true, decide_eq_true_eq] at h
  obtain ⟨⟨htimely, hstays⟩, hquiet⟩ := h
  refine ⟨htimely, staysAt_of_isAt hstays, ?_⟩
  cases a with
  | load now => trivial
  | perform op now =>
    cases op with
    | advanceTrainingJobRound t m r v => cases hquiet
    | _ => trivial

def onlyLease : Operation := .leaseTrainingAssignment "t" "m" "a" 0 1 60

/-- Another client leases and the process is started again in between. -/
theorem one_live_lease_twoClients : ∃ (p : StoreProcess) (x : PersistedAssignmentLease)
    (job : PersistedTrainingJobRecord) (dataset : PersistedDatasetRecord) (q : StoreProcess),
    Reaches step Timely (initial 10) p ∧ OneLease p.store.assignments ∧
    (leaseTrainingAssignment p.store "t" "m" "a" 0 1 60 2).value = some ⟨x, job, dataset⟩ ∧
    q.store.assignments.map (·.clientId) = ["a", "b"] ∧
    GivesAgain q.store 0 x (leaseTrainingAssignment q.store "t" "m" "a" 0 1 60 5) := by
  have htest : (execTested step (fun p a => decide (Timely p a))
      [.perform (.createTrainingJob (sharedJob "t" "m")) 1] (initial 10)).any (fun p =>
        decide (p.clock = 1) && (leaseTrainingAssignment p.store "t" "m" "a" 0 1 60 2).value.any
          (fun leased => (step p (.perform onlyLease 2)).any (fun p' =>
            decide (p'.store.assignments.length = 1) && decide (p'.store.trainingJobs.length = 1) &&
            (execTested step (staysQuiet 0 leased.job)
              [.perform (.leaseTrainingAssignment "t" "m" "b" 0 1 60) 3, .load 4] p').any (fun q =>
                decide (q.clock = 4) && isAt 0 leased.job q.store &&
                decide (currentTimestamp 5 < leased.assignment.expiresAt) &&
                q.store.assignments[0]?.all (fun y => y.status == .leased) &&
                q.store.assignments.map (·.clientId) == ["a", "b"])))) = true := by
    decide +kernel
  rw [Option.any_eq_true] at htest
  obtain ⟨p, hp, htest⟩ := htest
  simp only [Bool.and_eq_true, decide_eq_true_eq, Option.any_eq_true] at htest
  obtain ⟨hclock, ⟨x, job, dataset⟩, hvalue, p', hs, ⟨hone, hjobs⟩, q, hq, hrest⟩ := htest
  obtain ⟨⟨⟨⟨hclock', hstays⟩, hlater⟩, hleased⟩, hclients⟩ := hrest
  have hreaches := execTested_reaches _ (fun _ _ => of_decide_eq_true) _ hp
  obtain ⟨hlease, hagain⟩ := one_live_lease 10 p hreaches
  have htimely : Timely p (.perform onlyLease 2) := by
    show p.clock ≤ 2 ∧ 2 < clockEnd
    rw [hclock]
    decide
  obtain ⟨i, k, hi, hk, hgives⟩ := hagain "t" "m" "a" 0 1 60 2 x job dataset p' htimely hvalue hs
  obtain rfl : i = 0 := by
    have hlt := (List.getElem?_eq_some_iff.mp hi).1
    omega
  obtain rfl : k = 0 := by
    have hlt := (List.getElem?_eq_some_iff.mp hk).1
    omega
  have hrun := execTested_reaches _ (undisturbed_of_staysQuiet x) _ hq
  refine ⟨p, x, job, dataset, q, hreaches, hlease, hvalue, by simpa using hclients, ?_⟩
  apply hgives q hrun
  refine ⟨?_, staysAt_of_isAt hstays, hlater, ?_⟩
  · rw [hclock']
    decide
  · intro y hy
    rw [hy] at hleased
    have hstatus : y.status = .leased := by simpa using hleased
    rw [hstatus]
    decide

/-- The tenants and models differ, but with the separator in them the two jobs of
one instant get the same identifier. -/
def namesakes : List StoreAction := [
  .perform (.createTrainingJob (sharedJob "a" "b::c")) 1,
  .perform (.createTrainingJob (sharedJob "a::b" "c")) 1]

def leaseOfFirst : Operation := .leaseTrainingAssignment "a" "b::c" "x" 0 1 60

/-- The other job's round is advanced, and the client gets a second lease. -/
theorem namesake_ends_lease : ∃ (p : StoreProcess) (x : PersistedAssignmentLease)
    (job : PersistedTrainingJobRecord) (dataset : PersistedDatasetRecord) (p' q : StoreProcess),
    Reaches step Timely (initial 10) p ∧
    (leaseTrainingAssignment p.store "a" "b::c" "x" 0 1 60 2).value = some ⟨x, job, dataset⟩ ∧
    step p (.perform leaseOfFirst 2) = some p' ∧
    p'.store.assignments[0]? = some x ∧ p'.store.trainingJobs[0]? = some job ∧
    Reaches step (fun p a => Timely p a ∧ StaysAt 0 job p.store) p' q ∧
    StillLive 0 0 x job q 4 ∧
    ¬ GivesAgain q.store 0 x (leaseTrainingAssignment q.store "a" "b::c" "x" 0 1 60 4) := by
  have htest : (execTested step (fun p a => decide (Timely p a)) namesakes (initial 10)).any
      (fun p => (leaseTrainingAssignment p.store "a" "b::c" "x" 0 1 60 2).value.any (fun leased =>
        (step p (.perform leaseOfFirst 2)).any (fun p' =>
          decide (p'.store.assignments[0]? = some leased.assignment) &&
          decide (p'.store.trainingJobs[0]? = some leased.job) &&
          (execTested step (fun p a => decide (Timely p a) && isAt 0 leased.job p.store)
            [.perform (.advanceTrainingJobRound "a::b" "c" 1 1) 3] p').any (fun q =>
              decide (q.clock = 3) && isAt 0 leased.job q.store &&
              decide (currentTimestamp 4 < leased.assignment.expiresAt) &&
              q.store.assignments.map (·.status) == [.missed] &&
              decide ((leaseTrainingAssignment q.store "a" "b::c" "x" 0 1 60
                4).store.assignments.length = 2))))) = true := by
    decide +kernel
  rw [Option.any_eq_true] at htest
  obtain ⟨p, hp, htest⟩ := htest
  simp only [Bool.and_eq_true, decide_eq_true_eq, Option.any_eq_true] at htest
  obtain ⟨⟨x, job, dataset⟩, hvalue, p', hs, ⟨hx, hjob⟩, q, hq, hrest⟩ := htest
  obtain ⟨⟨⟨⟨hclock, hstays⟩, hlater⟩, hmissed⟩, hissued⟩ := hrest
  have hmissed' : q.store.assignments.map (·.status) = [.missed] := by simpa using hmissed
  have hreaches := execTested_reaches _ (fun _ _ => of_decide_eq_true) _ hp
  refine ⟨p, x, job, dataset, p', q, hreaches, hvalue, hs, hx, hjob, ?_, ?_, ?_⟩
  · apply execTested_reaches _ _ _ hq
    intro s a hok
    simp only [Bool.and_eq_true, decide_eq_true_eq] at hok
    exact ⟨hok.1, staysAt_of_isAt hok.2⟩
  · refine ⟨?_, staysAt_of_isAt hstays, hlater, ?_⟩
    · rw [hclock]
      decide
    · intro y hy
      have hstatus : y.status ∈ q.store.assignments.map (·.status) :=
        List.mem_map_of_mem (List.mem_of_getElem? hy)
      rw [hmissed', List.mem_singleton] at hstatus
      rw [hstatus]
      decide
  · intro hgives
    have hlength : q.store.assignments.length = 1 := by
      have hmap := congrArg List.length hmissed'
      rwa [List.length_map] at hmap
    have hsame := hgives.noneIssued
    omega

end PqFl.LiveLeases
