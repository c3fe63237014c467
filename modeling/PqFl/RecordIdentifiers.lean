import PqFl.RoundCapacity

/-!
# The identifiers of jobs and assignments

An identifier joins the names of a record and ends with the time at which the
record was made. Times have one length, so two identifiers are the same exactly
when both were made in the same millisecond from names which join to one text.
-/

set_option autoImplicit false

namespace PqFl.RecordIdentifiers
open PqFl.Identifiers PqFl.Timestamps PqFl.StoreRecords PqFl.StateStore PqFl.ListUpdate
open PqFl.StoreRuns PqFl.Runs PqFl.JobLedger PqFl.JobLifecycle PqFl.LeaseLifecycle PqFl.WorkerSteps
open PqFl.LiveLeases PqFl.RoundCapacity

def jobPrefix (tenantId modelId datasetId : String) : String :=
  tenantId ++ "::" ++ modelId ++ "::" ++ datasetId

def leasePrefix (jobId : String) (round : ℤ) (clientId : String) : String :=
  jobId ++ "::round:" ++ toString round ++ "::client:" ++ clientId

theorem stamped_inj {a b : String} {now now' : ℕ} (hnow : now < clockEnd) (hnow' : now' < clockEnd) :
    a ++ "::" ++ currentTimestamp now = b ++ "::" ++ currentTimestamp now' ↔
      a = b ∧ currentTimestamp now = currentTimestamp now' := by
  constructor
  · intro h
    have hlist := congrArg String.toList h
    simp only [String.toList_append] at hlist
    have hlength : (currentTimestamp now).toList.length = (currentTimestamp now').toList.length :=
      (currentTimestamp_length hnow).trans (currentTimestamp_length hnow').symm
    obtain ⟨hnames, htime⟩ := List.append_inj' hlist hlength
    exact ⟨String.toList_inj.mp (List.append_cancel_right hnames), String.toList_inj.mp htime⟩
  · rintro ⟨rfl, htime⟩
    rw [htime]

structure ComposedJob (j : PersistedTrainingJobRecord) : Prop where
  jobId : j.jobId = jobPrefix j.tenantId j.modelId j.datasetId ++ "::" ++ j.createdAt
  createdAt : ∃ now < clockEnd, j.createdAt = currentTimestamp now

structure ComposedAssignment (a : PersistedAssignmentLease) : Prop where
  assignmentId : a.assignmentId = leasePrefix a.jobId a.roundIndex a.clientId ++ "::" ++ a.issuedAt
  issuedAt : ∃ now < clockEnd, a.issuedAt = currentTimestamp now

structure Composed (s : StateStore) : Prop where
  jobs : ∀ j ∈ s.trainingJobs, ComposedJob j
  assignments : ∀ a ∈ s.assignments, ComposedAssignment a

/-- The admin service leaves the identifier of a job to the store. -/
def NamedByStore : Operation → Prop
  | .createTrainingJob record => record.jobId = ""
  | _ => True

/-- What a job is named after, with its name. -/
def jobName (j : PersistedTrainingJobRecord) : String × String × String × String × String :=
  (j.jobId, j.tenantId, j.modelId, j.datasetId, j.createdAt)

theorem ComposedJob.congr {j j' : PersistedTrainingJobRecord} (h : ComposedJob j)
    (hname : jobName j' = jobName j) : ComposedJob j' := by
  simp only [jobName, Prod.mk.injEq] at hname
  obtain ⟨hid, htenant, hmodel, hdataset, htime⟩ := hname
  constructor
  · rw [hid, htenant, hmodel, hdataset, htime]
    exact h.jobId
  · rw [htime]
    exact h.createdAt

theorem runningJob_name (now : String) (j : PersistedTrainingJobRecord) :
    jobName (runningJob now j) = jobName j := by
  unfold runningJob
  split
  · rfl
  · rfl

theorem supersede_name (t m : String) (j : PersistedTrainingJobRecord) :
    jobName (supersede t m j) = jobName j := by
  unfold supersede
  split
  · rfl
  · rfl

theorem perform_jobNames (s : StateStore) (now : ℕ) (op : Operation) :
    (perform s now op).store.trainingJobs.map jobName = s.trainingJobs.map jobName ∨
    ∃ record, op = .createTrainingJob record ∧ (perform s now op).store.trainingJobs.map jobName =
      s.trainingJobs.map jobName ++ [jobName (createTrainingJob s record now).value] := by
  have hstep := perform_jobs s now op
  generalize (perform s now op).store.trainingJobs = jobs at hstep ⊢
  cases hstep with
  | turned h =>
    left
    apply map_eq_of_forall₂ jobName _ h
    rintro j j' (_ | _ | _)
    · rfl
    · exact runningJob_name _ j
    · rfl
  | @created record =>
    right
    refine ⟨record, rfl, ?_⟩
    rw [List.map_append, List.map_map]
    congr 1
    exact List.map_congr_left (fun j _ => supersede_name _ _ j)
  | advanced hactive h =>
    left
    apply map_eq_of_forall₂ jobName _ h
    rintro j j' (rfl | ⟨rfl, rfl⟩)
    · rfl
    · rfl

theorem perform_jobNames_mem {s : StateStore} {now : ℕ} {op : Operation}
    {j' : PersistedTrainingJobRecord} (hj' : j' ∈ (perform s now op).store.trainingJobs) :
    (∃ j ∈ s.trainingJobs, jobName j' = jobName j) ∨
    ∃ record, op = .createTrainingJob record ∧
      jobName j' = jobName (createTrainingJob s record now).value := by
  have hname : jobName j' ∈ (perform s now op).store.trainingJobs.map jobName :=
    List.mem_map_of_mem hj'
  have hold : jobName j' ∈ s.trainingJobs.map jobName →
      ∃ j ∈ s.trainingJobs, jobName j' = jobName j := by
    intro hmem
    obtain ⟨j, hj, hsame⟩ := List.mem_map.mp hmem
    exact ⟨j, hj, hsame.symm⟩
  rcases perform_jobNames s now op with hsame | ⟨record, hop, hcreated⟩
  · rw [hsame] at hname
    exact .inl (hold hname)
  · rw [hcreated] at hname
    rcases List.mem_append.mp hname with hmem | hnew
    · exact .inl (hold hmem)
    · exact .inr ⟨record, hop, List.mem_singleton.mp hnew⟩

theorem created_composed {s : StateStore} {record : PersistedTrainingJobRecord} {now : ℕ}
    (hid : record.jobId = "") (hnow : now < clockEnd) :
    ComposedJob (createTrainingJob s record now).value := by
  refine ⟨?_, now, hnow, rfl⟩
  simp only [createTrainingJob, hid, if_true]
  rfl

theorem perform_jobsComposed {s : StateStore} (h : ∀ j ∈ s.trainingJobs, ComposedJob j) {now : ℕ}
    {op : Operation} (hop : NamedByStore op) (hnow : now < clockEnd) :
    ∀ j ∈ (perform s now op).store.trainingJobs, ComposedJob j := by
  intro j' hj'
  rcases perform_jobNames_mem hj' with ⟨j, hj, hname⟩ | ⟨record, rfl, hname⟩
  · exact (h j hj).congr hname
  · exact (created_composed hop hnow).congr hname

theorem ComposedAssignment.terms {a a' : PersistedAssignmentLease} (h : ComposedAssignment a)
    (hterms : SameTerms a a') : ComposedAssignment a' := by
  constructor
  · rw [hterms.assignmentId, hterms.jobId, hterms.roundIndex, hterms.clientId, hterms.issuedAt]
    exact h.assignmentId
  · rw [hterms.issuedAt]
    exact h.issuedAt

theorem newLease_composed (job : PersistedTrainingJobRecord) (t m c : String) (v ttl : ℤ) {now : ℕ}
    (hnow : now < clockEnd) : ComposedAssignment (newLease job t m c v ttl now) :=
  ⟨rfl, now, hnow, rfl⟩

theorem perform_assignmentsComposed {s : StateStore} (h : ∀ a ∈ s.assignments, ComposedAssignment a)
    {now : ℕ} (op : Operation) (hnow : now < clockEnd) :
    ∀ a ∈ (perform s now op).store.assignments, ComposedAssignment a := by
  obtain ⟨mid, granted, hl, hmoves, hgranted⟩ := perform_moves s now op
  intro a ha
  rw [hl] at ha
  rcases List.mem_append.mp ha with hold | hnew
  · obtain ⟨x, hx, hmove⟩ := forall₂_of_mem hmoves hold
    exact (h x hx).terms hmove.terms.1
  · have hgrants := hgranted a hnew
    cases op with
    | leaseTrainingAssignment t m c v n ttl =>
      obtain ⟨job, -, rfl⟩ := hgrants
      exact newLease_composed job t m c v ttl hnow
    | _ => cases hgrants

theorem perform_composed {s : StateStore} (h : Composed s) {now : ℕ} {op : Operation}
    (hop : NamedByStore op) (hnow : now < clockEnd) : Composed (perform s now op).store where
  jobs := perform_jobsComposed h.jobs hop hnow
  assignments := perform_assignmentsComposed h.assignments op hnow

theorem load_composed {image : StateStore} (htidy : Tidy image) (h : Composed image) (now : ℕ) :
    Composed (StateStore.load image now).store := by
  obtain ⟨-, -, -, hjobs, -, -, hassignments⟩ := load_fields htidy now
  constructor
  · rw [hjobs]
    exact h.jobs
  · rw [hassignments]
    exact forall_map h.assignments (fun a ha => ha.terms (lapse_quiet _ a).terms)

structure IdsUnique (s : StateStore) : Prop where
  jobs : (s.trainingJobs.map (fun j => j.jobId)).Nodup
  assignments : (s.assignments.map (fun a => a.assignmentId)).Nodup

/-- Nothing was made in this millisecond from names which join to the same text. -/
def FreshId (s : StateStore) (now : ℕ) : Operation → Prop
  | .createTrainingJob record => ∀ j ∈ s.trainingJobs, j.createdAt = currentTimestamp now →
      jobPrefix j.tenantId j.modelId j.datasetId ≠
        jobPrefix (normalizeTenant record.tenantId) (normalizeModel record.modelId) record.datasetId
  | .leaseTrainingAssignment t m c _ n _ => ∀ job, IssuesNew s t m c n now job →
      ∀ a ∈ s.assignments, a.issuedAt = currentTimestamp now →
        leasePrefix a.jobId a.roundIndex a.clientId ≠
          leasePrefix job.jobId (max 1 job.currentRound) c
  | _ => True

theorem jobIds_of_names {l l' : List PersistedTrainingJobRecord}
    (h : l'.map jobName = l.map jobName) :
    l'.map (fun j => j.jobId) = l.map (fun j => j.jobId) := by
  have hfirst := congrArg (List.map Prod.fst) h
  rwa [List.map_map, List.map_map] at hfirst

theorem assignmentIds_of_terms {l l' : List PersistedAssignmentLease}
    (h : List.Forall₂ SameTerms l l') :
    l'.map (fun a => a.assignmentId) = l.map (fun a => a.assignmentId) :=
  map_eq_of_forall₂ (fun a : PersistedAssignmentLease => a.assignmentId)
    (fun _ _ hterms => hterms.assignmentId) h

theorem ComposedJob.jobId_eq_iff {j : PersistedTrainingJobRecord} (h : ComposedJob j)
    {names : String} {now : ℕ} (hnow : now < clockEnd) :
    j.jobId = names ++ "::" ++ currentTimestamp now ↔
      jobPrefix j.tenantId j.modelId j.datasetId = names ∧ j.createdAt = currentTimestamp now := by
  obtain ⟨created, hcreated, htime⟩ := h.createdAt
  rw [h.jobId, htime]
  exact stamped_inj hcreated hnow

theorem ComposedAssignment.assignmentId_eq_iff {a : PersistedAssignmentLease}
    (h : ComposedAssignment a) {names : String} {now : ℕ} (hnow : now < clockEnd) :
    a.assignmentId = names ++ "::" ++ currentTimestamp now ↔
      leasePrefix a.jobId a.roundIndex a.clientId = names ∧ a.issuedAt = currentTimestamp now := by
  obtain ⟨issued, hissued, htime⟩ := h.issuedAt
  rw [h.assignmentId, htime]
  exact stamped_inj hissued hnow

theorem create_unique_iff {s : StateStore} (hc : Composed s) (h : IdsUnique s)
    {record : PersistedTrainingJobRecord} (hid : record.jobId = "") {now : ℕ}
    (hnow : now < clockEnd) : IdsUnique (perform s now (.createTrainingJob record)).store ↔
      FreshId s now (.createTrainingJob record) := by
  have hjobs : (perform s now (.createTrainingJob record)).store.trainingJobs.map
      (fun j => j.jobId) = s.trainingJobs.map (fun j => j.jobId) ++
        [jobPrefix (normalizeTenant record.tenantId) (normalizeModel record.modelId)
          record.datasetId ++ "::" ++ currentTimestamp now] := by
    have hcreated : (createTrainingJob s record now).value.jobId =
        jobPrefix (normalizeTenant record.tenantId) (normalizeModel record.modelId)
          record.datasetId ++ "::" ++ currentTimestamp now := (created_composed hid hnow).jobId
    have hkept : (s.trainingJobs.map (supersede (normalizeTenant record.tenantId)
        (normalizeModel record.modelId))).map (fun j => j.jobId) =
          s.trainingJobs.map (fun j => j.jobId) := by
      apply jobIds_of_names
      rw [List.map_map]
      exact List.map_congr_left (fun j _ => supersede_name _ _ j)
    simp only [perform, written]
    rw [(create_jobs s record now).1, List.map_append, hkept, List.map_singleton, hcreated]
  have hassignments : (perform s now (.createTrainingJob record)).store.assignments.map
      (fun a => a.assignmentId) = s.assignments.map (fun a => a.assignmentId) := by
    have hmoves : List.Forall₂ (AssignmentMove s now (.createTrainingJob record)) s.assignments
        (perform s now (.createTrainingJob record)).store.assignments :=
      perform_moves_only (by simp)
    exact assignmentIds_of_terms (hmoves.imp (fun _ _ hmove => hmove.terms.1))
  constructor
  · rintro ⟨hunique, -⟩ j hj htime hnames
    rw [hjobs, nodup_append_one] at hunique
    apply hunique.2 j.jobId (List.mem_map_of_mem hj)
    exact ((hc.jobs j hj).jobId_eq_iff hnow).mpr ⟨hnames, htime⟩
  · intro hfresh
    constructor
    · rw [hjobs, nodup_append_one]
      refine ⟨h.jobs, ?_⟩
      intro id hmem heq
      obtain ⟨j, hj, rfl⟩ := List.mem_map.mp hmem
      obtain ⟨hnames, htime⟩ := ((hc.jobs j hj).jobId_eq_iff hnow).mp heq
      exact hfresh j hj htime hnames
    · rw [hassignments]
      exact h.assignments

theorem lease_unique_iff {s : StateStore} (hc : Composed s) (h : IdsUnique s) (t m c : String)
    (v n ttl : ℤ) {now : ℕ} (hnow : now < clockEnd) :
    IdsUnique (perform s now (.leaseTrainingAssignment t m c v n ttl)).store ↔
      FreshId s now (.leaseTrainingAssignment t m c v n ttl) := by
  have hjobs : (perform s now (.leaseTrainingAssignment t m c v n ttl)).store.trainingJobs.map
      (fun j => j.jobId) = s.trainingJobs.map (fun j => j.jobId) := by
    rcases perform_jobNames s now (.leaseTrainingAssignment t m c v n ttl) with hsame |
      ⟨record, hop, -⟩
    · exact jobIds_of_names hsame
    · cases hop
  have hswept : (s.assignments.map (lapse (currentTimestamp now))).map (fun a => a.assignmentId) =
      s.assignments.map (fun a => a.assignmentId) :=
    assignmentIds_of_terms (forall₂_map _ (fun a => (lapse_quiet _ a).terms) _)
  have hiff : IdsUnique (perform s now (.leaseTrainingAssignment t m c v n ttl)).store ↔
      ((leaseTrainingAssignment s t m c v n ttl now).store.assignments.map
        (fun a => a.assignmentId)).Nodup := by
    constructor
    · exact fun hunique => hunique.assignments
    · intro hunique
      refine ⟨?_, hunique⟩
      rw [hjobs]
      exact h.jobs
  rw [hiff]
  have houtcome := lease_outcome s t m c v n ttl now
  generalize (leaseTrainingAssignment s t m c v n ttl now).value = value at houtcome
  generalize (leaseTrainingAssignment s t m c v n ttl now).store.assignments = l at houtcome ⊢
  cases houtcome with
  | refused hwhy =>
    rw [hswept]
    refine ⟨fun _ job hnew => ?_, fun _ => h.assignments⟩
    have hfull := (hwhy job hnew.active hnew.unfinished).2
    exact absurd hnew.room (not_lt.mpr hfull)
  | @again job x dataset hjob hopen hlive =>
    rw [hswept]
    refine ⟨fun _ job' hnew => ?_, fun _ => h.assignments⟩
    obtain rfl : job = job' := Option.some.inj (hjob.symm.trans hnew.active)
    rw [hnew.none] at hlive
    cases hlive
  | @fresh job dataset hjob hopen hnone hroom =>
    have hid : (newLease job t m c v ttl now).assignmentId =
        leasePrefix job.jobId (max 1 job.currentRound) c ++ "::" ++ currentTimestamp now := rfl
    rw [List.map_append, hswept, List.map_singleton, hid, nodup_append_one]
    constructor
    · rintro ⟨-, hne⟩ job' hnew a ha htime hnames
      obtain rfl : job = job' := Option.some.inj (hjob.symm.trans hnew.active)
      apply hne a.assignmentId (List.mem_map_of_mem ha)
      exact ((hc.assignments a ha).assignmentId_eq_iff hnow).mpr ⟨hnames, htime⟩
    · intro hfresh
      refine ⟨h.assignments, ?_⟩
      intro id hmem heq
      obtain ⟨a, ha, rfl⟩ := List.mem_map.mp hmem
      obtain ⟨hnames, htime⟩ := ((hc.assignments a ha).assignmentId_eq_iff hnow).mp heq
      exact hfresh job ⟨hjob, hopen, hnone, hroom⟩ a ha htime hnames

theorem perform_unique_iff {s : StateStore} (hc : Composed s) (h : IdsUnique s) {now : ℕ}
    {op : Operation} (hop : NamedByStore op) (hnow : now < clockEnd) :
    IdsUnique (perform s now op).store ↔ FreshId s now op := by
  by_cases hcreate : ∃ record, op = .createTrainingJob record
  · obtain ⟨record, rfl⟩ := hcreate
    exact create_unique_iff hc h hop hnow
  by_cases hlease : ∃ t m c v n ttl, op = .leaseTrainingAssignment t m c v n ttl
  · obtain ⟨t, m, c, v, n, ttl, rfl⟩ := hlease
    exact lease_unique_iff hc h t m c v n ttl hnow
  have hjobs : (perform s now op).store.trainingJobs.map (fun j => j.jobId) =
      s.trainingJobs.map (fun j => j.jobId) := by
    rcases perform_jobNames s now op with hsame | ⟨record, hop, -⟩
    · exact jobIds_of_names hsame
    · exact absurd ⟨record, hop⟩ hcreate
  have hmoves : List.Forall₂ (AssignmentMove s now op) s.assignments
      (perform s now op).store.assignments :=
    perform_moves_only (fun t m c v n ttl heq => hlease ⟨t, m, c, v, n, ttl, heq⟩)
  have hassignments := assignmentIds_of_terms (hmoves.imp (fun _ _ hmove => hmove.terms.1))
  constructor
  · intro _
    cases op with
    | createTrainingJob record => exact absurd ⟨record, rfl⟩ hcreate
    | leaseTrainingAssignment t m c v n ttl => exact absurd ⟨t, m, c, v, n, ttl, rfl⟩ hlease
    | _ => trivial
  · intro _
    constructor
    · rw [hjobs]
      exact h.jobs
    · rw [hassignments]
      exact h.assignments

/-- The file of the store is composed as well, since a load reads it back. -/
structure ComposedProcess (p : StoreProcess) : Prop where
  backed : Backed p
  behind : Behind p
  store : Composed p.store
  disk : Composed p.disk

def NamedAction : StoreAction → Prop
  | .perform op _ => NamedByStore op
  | .load _ => True

def FreshAction (p : StoreProcess) : StoreAction → Prop
  | .perform op now => FreshId p.store now op
  | .load _ => True

/-- The steps of the services with a clock that does not go back. -/
def Served (p : StoreProcess) (a : StoreAction) : Prop := Timely p a ∧ NamedAction a

theorem initial_composed (n : ℕ) : ComposedProcess (initial n) where
  backed := initial_backed n
  behind := initial_behind n
  store := ⟨by simp [initial, emptyStore], by simp [initial, emptyStore]⟩
  disk := ⟨by simp [initial, emptyStore], by simp [initial, emptyStore]⟩

theorem step_composed {p p' : StoreProcess} {a : StoreAction} (h : ComposedProcess p)
    (ha : Served p a) (hs : step p a = some p') : ComposedProcess p' := by
  have hbacked := step_backed h.backed hs
  have hbehind := step_behind h.behind ha.1 hs
  cases a with
  | perform op now =>
    obtain rfl := Option.some.inj hs
    have hcomposed : Composed (perform p.store now op).store :=
      perform_composed h.store ha.2 ha.1.2
    refine ⟨hbacked, hbehind, hcomposed, ?_⟩
    dsimp only
    split
    · exact hcomposed
    · exact h.disk
  | load now =>
    obtain rfl := Option.some.inj hs
    have hcomposed := load_composed h.backed.disk h.disk now
    exact ⟨hbacked, hbehind, hcomposed, hcomposed⟩

theorem load_ids {p : StoreProcess} (h : ComposedProcess p) (now : ℕ) :
    (StateStore.load p.disk now).store.trainingJobs.map (fun j => j.jobId) =
      p.store.trainingJobs.map (fun j => j.jobId) ∧
    (StateStore.load p.disk now).store.assignments.map (fun a => a.assignmentId) =
      p.store.assignments.map (fun a => a.assignmentId) := by
  obtain ⟨-, -, -, -, -, -, hassignments⟩ := load_fields h.backed.disk now
  constructor
  · rw [(load_backed h.backed now).2.2]
  · have hswept : (p.disk.assignments.map (lapse (currentTimestamp now))).map
        (fun a => a.assignmentId) = p.disk.assignments.map (fun a => a.assignmentId) :=
      assignmentIds_of_terms (forall₂_map _ (fun a => (lapse_quiet _ a).terms) _)
    have hstore : p.store.assignments.map (fun a => a.assignmentId) =
        p.disk.assignments.map (fun a => a.assignmentId) := by
      apply assignmentIds_of_terms (h.behind.leases.imp _)
      rintro x y (rfl | ⟨t, -, rfl⟩)
      · exact .refl y
      · exact (lapse_quiet _ x).terms
    rw [hassignments, hswept, hstore]

theorem step_unique_iff {p p' : StoreProcess} {a : StoreAction} (h : ComposedProcess p)
    (hunique : IdsUnique p.store) (ha : Served p a) (hs : step p a = some p') :
    IdsUnique p'.store ↔ FreshAction p a := by
  cases a with
  | perform op now =>
    obtain rfl := Option.some.inj hs
    exact perform_unique_iff h.store hunique ha.2 ha.1.2
  | load now =>
    obtain rfl := Option.some.inj hs
    obtain ⟨hjobs, hassignments⟩ := load_ids h now
    refine ⟨fun _ => trivial, fun _ => ⟨?_, ?_⟩⟩
    · exact hjobs ▸ hunique.jobs
    · exact hassignments ▸ hunique.assignments

/-- As long as every new identifier is fresh, identifiers are distinct and lookups by
them find the record that is meant; and the next step keeps this exactly when its new
identifier is fresh. -/
theorem generated_ids_unique (auditRetention : ℕ) (p : StoreProcess)
    (h : Reaches step (fun p a => Served p a ∧ FreshAction p a) (initial auditRetention) p) :
    IdsUnique p.store ∧
    (∀ j ∈ p.store.trainingJobs,
      p.store.trainingJobs.find? (fun x => x.jobId == j.jobId) = some j) ∧
    (∀ a ∈ p.store.assignments,
      p.store.assignments.find? (fun x => x.assignmentId == a.assignmentId) = some a) ∧
    ∀ a p', Served p a → step p a = some p' → (IdsUnique p'.store ↔ FreshAction p a) := by
  have hinvariant : ComposedProcess p ∧ IdsUnique p.store := by
    refine h.invariant (I := fun p => ComposedProcess p ∧ IdsUnique p.store)
      ⟨initial_composed auditRetention, ?_⟩ ?_
    · exact ⟨by simp [initial, emptyStore], by simp [initial, emptyStore]⟩
    · rintro p a p' ⟨hcomposed, hunique⟩ ⟨hserved, hfresh⟩ hs
      exact ⟨step_composed hcomposed hserved hs,
        (step_unique_iff hcomposed hunique hserved hs).mpr hfresh⟩
  obtain ⟨hcomposed, hunique⟩ := hinvariant
  refine ⟨hunique, ?_, ?_, ?_⟩
  · intro j hj
    exact find_own hunique.jobs hj
  · intro a ha
    exact find_own hunique.assignments ha
  · intro a p' hserved hs
    exact step_unique_iff hcomposed hunique hserved hs

def isServed (p : StoreProcess) (a : StoreAction) : Bool := decide (Timely p a) && (match a with
  | .perform (.createTrainingJob record) _ => record.jobId == ""
  | _ => true)

theorem served_of_isServed (p : StoreProcess) (a : StoreAction) (h : isServed p a = true) :
    Served p a := by
  obtain ⟨htimely, hnamed⟩ := Bool.and_eq_true_iff.mp h
  refine ⟨of_decide_eq_true htimely, ?_⟩
  cases a with
  | load now => trivial
  | perform op now =>
    cases op with
    | createTrainingJob record => exact beq_iff_eq.mp hnamed
    | _ => trivial

def isFresh (p : StoreProcess) : StoreAction → Bool
  | .perform (.createTrainingJob record) now => p.store.trainingJobs.all (fun j =>
      j.createdAt != currentTimestamp now ||
        jobPrefix j.tenantId j.modelId j.datasetId != jobPrefix (normalizeTenant record.tenantId)
          (normalizeModel record.modelId) record.datasetId)
  | .perform (.leaseTrainingAssignment t m c _ _ _) now =>
    (getActiveTrainingJob p.store t m).all (fun job => p.store.assignments.all (fun a =>
      a.issuedAt != currentTimestamp now || leasePrefix a.jobId a.roundIndex a.clientId !=
        leasePrefix job.jobId (max 1 job.currentRound) c))
  | _ => true

theorem fresh_of_isFresh (p : StoreProcess) (a : StoreAction) (h : isFresh p a = true) :
    FreshAction p a := by
  cases a with
  | load now => trivial
  | perform op now =>
    cases op with
    | createTrainingJob record =>
      intro j hj htime
      simpa [htime] using List.all_eq_true.mp h j hj
    | leaseTrainingAssignment t m c v n ttl =>
      intro job hnew a ha htime
      simp only [isFresh, hnew.active, Option.all_some] at h
      simpa [htime] using List.all_eq_true.mp h a ha
    | _ => trivial

/-- Two jobs of one instant with a lease each, in two scopes. -/
def twoScopes : List StoreAction := [
  .perform (.createTrainingJob (sharedJob "t" "m")) 1,
  .perform (.createTrainingJob (sharedJob "t" "n")) 1,
  .perform (.leaseTrainingAssignment "t" "m" "a" 0 1 60) 2,
  .perform (.leaseTrainingAssignment "t" "n" "a" 0 1 60) 2,
  .load 3]

theorem generated_ids_unique_twoScopes : ∃ p,
    Reaches step (fun p a => Served p a ∧ FreshAction p a) (initial 10) p ∧
    p.store.trainingJobs.length = 2 ∧ p.store.assignments.length = 2 ∧ IdsUnique p.store ∧
    ∀ a p', Served p a → step p a = some p' → (IdsUnique p'.store ↔ FreshAction p a) := by
  have htest : (execTested step (fun p a => isServed p a && isFresh p a) twoScopes (initial 10)).any
      (fun p => p.store.trainingJobs.length == 2 && p.store.assignments.length == 2) = true := by
    decide +kernel
  rw [Option.any_eq_true] at htest
  obtain ⟨p, hp, hlengths⟩ := htest
  rw [Bool.and_eq_true, beq_iff_eq, beq_iff_eq] at hlengths
  have hrun : Reaches step (fun p a => Served p a ∧ FreshAction p a) (initial 10) p := by
    refine execTested_reaches _ ?_ twoScopes hp
    intro p a ha
    obtain ⟨hserved, hfresh⟩ := Bool.and_eq_true_iff.mp ha
    exact ⟨served_of_isServed p a hserved, fresh_of_isFresh p a hfresh⟩
  obtain ⟨hunique, -, -, hnext⟩ := generated_ids_unique 10 p hrun
  exact ⟨p, hrun, hlengths.1, hlengths.2, hunique, hnext⟩

/-- The job is created twice in one instant; and the client submits and asks again in
the instant of its first lease. -/
def oneInstant : List StoreAction := [
  .perform (.createTrainingJob (sharedJob "t" "m")) 1,
  .perform (.createTrainingJob (sharedJob "t" "m")) 1,
  .perform (.leaseTrainingAssignment "t" "m" "a" 0 1 60) 2,
  .perform (.acceptTrainingAssignmentSubmission "t" "m" "a" "t::m::d::1970-01-01T00:00:00.001Z"
    "t::m::d::1970-01-01T00:00:00.001Z::round:1::client:a::1970-01-01T00:00:00.002Z" 1 0) 2,
  .perform (.leaseTrainingAssignment "t" "m" "a" 0 1 60) 2]

/-- Two jobs and two assignments share an identifier, and the lookup of the lease which
the client holds finds the one it has used. -/
theorem identifiers_repeated : ∃ p held found, Reaches step Served (initial 10) p ∧
    p.store.trainingJobs.map (fun j => j.jobId) =
      ["t::m::d::1970-01-01T00:00:00.001Z", "t::m::d::1970-01-01T00:00:00.001Z"] ∧
    p.store.assignments = [found, held] ∧ held.status = .leased ∧ found.status = .submitted ∧
    p.store.assignments.find? (fun a => a.assignmentId == held.assignmentId) = some found ∧
    ¬ IdsUnique p.store := by
  have htest : (execTested step isServed oneInstant (initial 10)).any (fun p =>
      p.store.trainingJobs.map (fun j => j.jobId) ==
        ["t::m::d::1970-01-01T00:00:00.001Z", "t::m::d::1970-01-01T00:00:00.001Z"] &&
      (p.store.assignments[0]?).any (fun found => (p.store.assignments[1]?).any (fun held =>
        decide (p.store.assignments = [found, held]) && held.status == .leased &&
          found.status == .submitted &&
          decide (p.store.assignments.find? (fun a => a.assignmentId == held.assignmentId) =
            some found)))) = true := by
    decide +kernel
  rw [Option.any_eq_true] at htest
  obtain ⟨p, hp, hfacts⟩ := htest
  rw [Bool.and_eq_true, Option.any_eq_true] at hfacts
  obtain ⟨hjobs, found, -, hfacts⟩ := hfacts
  rw [Option.any_eq_true] at hfacts
  obtain ⟨held, -, hfacts⟩ := hfacts
  simp only [Bool.and_eq_true, decide_eq_true_eq, beq_iff_eq] at hjobs hfacts
  obtain ⟨⟨⟨hlist, hheld⟩, hfound⟩, hlookup⟩ := hfacts
  refine ⟨p, held, found, execTested_reaches isServed served_of_isServed _ hp, hjobs, hlist, hheld,
    hfound, hlookup, ?_⟩
  intro hunique
  have hdistinct := hunique.jobs
  rw [hjobs] at hdistinct
  exact absurd hdistinct (by decide)

end PqFl.RecordIdentifiers
