import PqFl.BindingSteps
import PqFl.RecordIdentifiers
import PqFl.TaskLifecycle

/-!
# Task identifiers

Three calls of the store compose the identifier of a task: from the scope, the
dataset and the time of the job, from the round, the client and the time of the
lease, and from the worker. All its characters are legal, so a report is refused
for the length of the identifier alone.
-/

set_option autoImplicit false

namespace PqFl.TaskIdentifiers
open PqFl.Identifiers PqFl.SeparatedKeys PqFl.Timestamps PqFl.FixedWidth PqFl.StoreRecords
open PqFl.StateStore PqFl.ListUpdate PqFl.Aggregation PqFl.Services PqFl.Process PqFl.StoreRuns
open PqFl.Runs PqFl.JobLedger PqFl.JobLifecycle PqFl.LeaseLifecycle PqFl.WorkerSteps
open PqFl.LiveLeases PqFl.RecordIdentifiers PqFl.ServerStore PqFl.CertificateBinding
open PqFl.TaskLifecycle PqFl.Configuration PqFl.Floats

def Allowed (value : String) : Prop := value.toList.all isAllowedIdentifierChar = true

theorem allowed_append {a b : String} : Allowed (a ++ b) ↔ Allowed a ∧ Allowed b := by
  unfold Allowed
  rw [String.toList_append, List.all_append, Bool.and_eq_true]

theorem isAllowed_of_isDigit {ch : Char} (h : ch.isDigit = true) :
    isAllowedIdentifierChar ch = true := by
  simp [isAllowedIdentifierChar, Char.isAlphanum, h]

theorem allowed_toString (n : ℤ) : Allowed (toString n) := by
  apply List.all_eq_true.mpr
  intro ch hch
  rcases decimal_of_mem_toString hch with hdigit | rfl
  · exact isAllowed_of_isDigit hdigit
  · decide

theorem numeral_all (width n : ℕ) : (numeral width n).all isAllowedIdentifierChar = true := by
  apply List.all_eq_true.mpr
  intro ch hch
  exact isAllowed_of_isDigit (numeral_isDigits width n ch hch)

theorem allowed_currentTimestamp (now : ℕ) : Allowed (currentTimestamp now) := by
  unfold Allowed
  rw [currentTimestamp_toList]
  simp only [stampLayout, stampNumbers, numerals, List.all_append, List.all_cons, List.all_nil,
    numeral_all, Bool.true_and, Bool.and_true]
  decide

theorem Allowed.of_valid {value fieldName : String} {allowEmpty : Bool} (hfield : fieldName ≠ "")
    (h : validateIdentifier value fieldName allowEmpty = "") : Allowed value :=
  ((validateIdentifier_eq_empty hfield).mp h).2.2

theorem allowed_normalizeTenant {t : String} (h : Allowed t) : Allowed (normalizeTenant t) := by
  unfold normalizeTenant
  split
  · show Allowed "default-tenant"
    unfold Allowed
    decide
  · exact h

theorem allowed_normalizeModel {m : String} (h : Allowed m) : Allowed (normalizeModel m) := by
  unfold normalizeModel
  split
  · show Allowed "default-model"
    unfold Allowed
    decide
  · exact h

/-- A job of the admin service. -/
structure IssuedJob (j : PersistedTrainingJobRecord) : Prop extends ComposedJob j where
  tenant : Allowed j.tenantId
  model : Allowed j.modelId
  dataset : Allowed j.datasetId

def IssuedTask (task : PersistedWorkerTaskRecord) : Prop :=
  task.taskId = task.assignmentId ++ "::worker:" ++ task.workerId

/-- The records of a store to which only the services write. -/
structure Issued (s : StateStore) : Prop where
  jobs : ∀ j ∈ s.trainingJobs, IssuedJob j
  assignments : ∀ a ∈ s.assignments, ComposedAssignment a
  tasks : ∀ task ∈ s.workerTasks, IssuedTask task
  workers : ∀ w ∈ s.workers, Allowed w.trainerClientId

/-- What the services have checked before they call the store. -/
def Vetted : Operation → Prop
  | .createTrainingJob record => record.jobId = "" ∧ Allowed record.tenantId ∧
      Allowed record.modelId ∧ Allowed record.datasetId
  | .upsertWorker record => Allowed record.trainerClientId
  | _ => True

theorem IssuedJob.congr {j j' : PersistedTrainingJobRecord} (h : IssuedJob j)
    (hname : jobName j' = jobName j) : IssuedJob j' := by
  refine ⟨h.toComposedJob.congr hname, ?_, ?_, ?_⟩
  all_goals
    simp only [jobName, Prod.mk.injEq] at hname
    obtain ⟨-, htenant, hmodel, hdataset, -⟩ := hname
  · rw [htenant]
    exact h.tenant
  · rw [hmodel]
    exact h.model
  · rw [hdataset]
    exact h.dataset

theorem IssuedJob.allowed {j : PersistedTrainingJobRecord} (h : IssuedJob j) : Allowed j.jobId := by
  obtain ⟨now, -, htime⟩ := h.createdAt
  have hseparator : Allowed "::" := by
    unfold Allowed
    decide
  rw [h.jobId, jobPrefix, htime]
  simp only [allowed_append]
  exact ⟨⟨⟨⟨⟨⟨h.tenant, hseparator⟩, h.model⟩, hseparator⟩, h.dataset⟩, hseparator⟩,
    allowed_currentTimestamp now⟩

theorem IssuedJob.length {j : PersistedTrainingJobRecord} (h : IssuedJob j) :
    j.jobId.toList.length =
      j.tenantId.toList.length + j.modelId.toList.length + j.datasetId.toList.length + 30 := by
  obtain ⟨now, hnow, htime⟩ := h.createdAt
  have hseparator : "::".toList.length = 2 := rfl
  rw [h.jobId, jobPrefix, htime]
  simp only [String.toList_append, List.length_append]
  rw [currentTimestamp_length hnow, hseparator]
  omega

theorem created_issued {s : StateStore} {record : PersistedTrainingJobRecord} {now : ℕ}
    (hv : Vetted (.createTrainingJob record)) (hnow : now < clockEnd) :
    IssuedJob (createTrainingJob s record now).value := by
  obtain ⟨hid, htenant, hmodel, hdataset⟩ := hv
  exact ⟨created_composed hid hnow, allowed_normalizeTenant htenant, allowed_normalizeModel hmodel,
    hdataset⟩

theorem perform_jobsIssued {s : StateStore} (h : ∀ j ∈ s.trainingJobs, IssuedJob j) {now : ℕ}
    {op : Operation} (hv : Vetted op) (hnow : now < clockEnd) :
    ∀ j ∈ (perform s now op).store.trainingJobs, IssuedJob j := by
  intro j' hj'
  rcases perform_jobNames_mem hj' with ⟨j, hj, hname⟩ | ⟨record, rfl, hname⟩
  · exact (h j hj).congr hname
  · exact (created_issued hv hnow).congr hname

theorem IssuedTask.congr {task task' : PersistedWorkerTaskRecord} (h : IssuedTask task)
    (hid : task'.taskId = task.taskId) (hassignment : task'.assignmentId = task.assignmentId)
    (hworker : task'.workerId = task.workerId) : IssuedTask task' := by
  unfold IssuedTask
  rw [hid, hassignment, hworker]
  exact h

theorem perform_tasksIssued {s : StateStore} (h : ∀ task ∈ s.workerTasks, IssuedTask task) (now : ℕ)
    (op : Operation) : ∀ task ∈ (perform s now op).store.workerTasks, IssuedTask task := by
  have hfound : ∀ {p : PersistedWorkerTaskRecord → Bool} {task},
      s.workerTasks.find? p = some task → IssuedTask task :=
    fun hfind => h _ (List.mem_of_find?_eq_some hfind)
  cases perform_taskStep s now op with
  | kept hassignments htasks hworkers => rwa [htasks]
  | swept hop granted hgranted hassignments htasks hworkers => rwa [htasks]
  | accepted hcheck hfound hleased hassignments htasks hworkers =>
    rw [htasks]
    apply forall_map h
    intro task htask
    split
    · exact htask.congr rfl rfl rfl
    · exact htask
  | advanced hjob hassignments htasks hworkers =>
    rw [htasks]
    apply forall_map h
    intro task htask
    split
    · exact htask.congr rfl rfl rfl
    · exact htask
  | added hnew hassignments htasks hworkers => rwa [htasks]
  | registeredAgain hknown hassignments htasks hworkers => rwa [htasks]
  | leasedAgain hknown hassignments htasks hworkers =>
    rw [htasks]
    exact forall_updateFirst h (fun _ _ => (hfound hknown).congr rfl rfl rfl)
  | leased hnew hassignments htasks hworkers =>
    rw [htasks]
    apply forall_append_one h
    unfold IssuedTask
    rfl
  | reported hreported hown hassignments htasks hworkers =>
    rw [htasks]
    exact forall_updateFirst h (fun _ _ => (hfound hreported).congr rfl rfl rfl)
  | beat hassignments htasks hworkers => rwa [htasks]

theorem perform_trainersAllowed {s : StateStore} (h : ∀ w ∈ s.workers, Allowed w.trainerClientId)
    {now : ℕ} {op : Operation} (hv : Vetted op) :
    ∀ w ∈ (perform s now op).store.workers, Allowed w.trainerClientId := by
  cases perform_taskStep s now op with
  | kept hassignments htasks hworkers => rwa [hworkers]
  | swept hop granted hgranted hassignments htasks hworkers => rwa [hworkers]
  | accepted hcheck hfound hleased hassignments htasks hworkers =>
    rw [hworkers]
    exact workers_accept (fun _ _ hw => hw) h _
  | advanced hjob hassignments htasks hworkers =>
    rw [hworkers]
    exact workers_advance (fun _ _ hw => hw) h _
  | added hnew hassignments htasks hworkers =>
    rw [hworkers]
    exact forall_append_one h hv
  | registeredAgain hknown hassignments htasks hworkers =>
    rw [hworkers]
    exact forall_updateFirst h (fun _ _ => hv)
  | leasedAgain hknown hassignments htasks hworkers =>
    rw [hworkers]
    apply forall_map h
    intro w hw
    split
    · exact hw
    · exact hw
  | leased hnew hassignments htasks hworkers =>
    rw [hworkers]
    exact forall_updateFirst h (fun _ hw => hw)
  | reported hreported hown hassignments htasks hworkers =>
    rw [hworkers]
    apply forall_updateFirst h
    intro w hw
    unfold reportToWorker
    dsimp only
    split_ifs <;> exact hw
  | beat hassignments htasks hworkers =>
    rw [hworkers]
    apply forall_updateFirst h
    intro w hw
    unfold beatWorker
    split_ifs <;> exact hw

theorem perform_issued {s : StateStore} (h : Issued s) {now : ℕ} {op : Operation} (hv : Vetted op)
    (hnow : now < clockEnd) : Issued (perform s now op).store where
  jobs := perform_jobsIssued h.jobs hv hnow
  assignments := perform_assignmentsComposed h.assignments op hnow
  tasks := perform_tasksIssued h.tasks now op
  workers := perform_trainersAllowed h.workers hv

theorem load_issued {image : StateStore} (htidy : Tidy image) (h : Issued image) (now : ℕ) :
    Issued (StateStore.load image now).store := by
  obtain ⟨-, -, -, hjobs, hworkers, -, hassignments⟩ := load_fields htidy now
  have hloaded : records (StateStore.load image now).store = records (normalizedRecords image) := by
    rw [StateStore.load, records_trim, records_expire]
  have htasks : (StateStore.load image now).store.workerTasks =
      (normalizedRecords image).workerTasks := (records_eq hloaded).2.2.2.2.2.1
  refine ⟨?_, ?_, ?_, ?_⟩
  · rw [hjobs]
    exact h.jobs
  · rw [hassignments]
    exact forall_map h.assignments (fun a ha => ha.terms (lapse_quiet _ a).terms)
  · rw [htasks]
    exact forall_map h.tasks (fun _ htask => htask)
  · rw [hworkers]
    exact h.workers

structure IssuedProcess (p : StoreProcess) : Prop where
  backed : Backed p
  store : Issued p.store
  disk : Issued p.disk

def VettedAction : StoreAction → Prop
  | .perform op _ => Vetted op
  | .load _ => True

theorem step_issued {p p' : StoreProcess} {a : StoreAction} (h : IssuedProcess p)
    (hv : VettedAction a) (hnow : a.now < clockEnd) (hs : StoreRuns.step p a = some p') :
    IssuedProcess p' := by
  have hbacked := step_backed h.backed hs
  cases a with
  | perform op now =>
    obtain rfl := Option.some.inj hs
    have hissued : Issued (perform p.store now op).store := perform_issued h.store hv hnow
    refine ⟨hbacked, hissued, ?_⟩
    dsimp only
    split
    · exact hissued
    · exact h.disk
  | load now =>
    obtain rfl := Option.some.inj hs
    have hissued := load_issued h.backed.disk h.disk now
    exact ⟨hbacked, hissued, hissued⟩

theorem exec_issued {actions : List StoreAction} {p p' : StoreProcess} (h : IssuedProcess p)
    (hactions : ∀ a ∈ actions, VettedAction a ∧ a.now < clockEnd)
    (hexec : exec StoreRuns.step actions p = some p') : IssuedProcess p' := by
  induction actions generalizing p with
  | nil =>
    cases hexec
    exact h
  | cons a actions ih =>
    obtain ⟨mid, hmid, hrest⟩ := Option.bind_eq_some_iff.mp hexec
    obtain ⟨hv, hnow⟩ := hactions a List.mem_cons_self
    exact ih (step_issued h hv hnow hmid)
      (fun a' ha' => hactions a' (List.mem_cons_of_mem _ ha')) hrest

/-- An assignment for the client of the worker, under a job of the services. -/
structure IssuedLease (worker : PersistedWorkerRecord) (lease : LeasedAssignment) : Prop where
  job : IssuedJob lease.job
  assignment : ComposedAssignment lease.assignment
  jobId : lease.assignment.jobId = lease.job.jobId
  client : lease.assignment.clientId = worker.trainerClientId
  round : lease.assignment.roundIndex = max 1 lease.job.currentRound

theorem lease_issued {s : StateStore} (h : Issued s) (worker : PersistedWorkerRecord) (t m : String)
    (v n ttl : ℤ) {now : ℕ} (hnow : now < clockEnd) {lease : LeasedAssignment}
    (hlease : (leaseTrainingAssignment s t m worker.trainerClientId v n ttl now).value =
      some lease) : IssuedLease worker lease := by
  have houtcome := lease_outcome s t m worker.trainerClientId v n ttl now
  rw [hlease] at houtcome
  generalize (leaseTrainingAssignment s t m worker.trainerClientId v n ttl now).store.assignments =
    l at houtcome
  cases houtcome with
  | @again job x dataset hjob hopen hlive =>
    obtain ⟨hid, hround, -⟩ := runningJob_fields (currentTimestamp now) job
    obtain ⟨y, hy, rfl⟩ := List.mem_map.mp (List.mem_of_find?_eq_some hlive)
    have hof := List.find?_some hlive
    simp only [isLiveLeaseOf, isLiveLease, Bool.and_eq_true, beq_iff_eq] at hof
    obtain ⟨⟨⟨⟨hjobId, hroundIndex⟩, -⟩, -⟩, hclient⟩ := hof
    exact ⟨(h.jobs job (getActive_mem hjob).1).congr (runningJob_name _ job),
      (h.assignments y hy).terms (lapse_quiet _ y).terms, hjobId.trans hid.symm, hclient,
      by rw [hround]; exact hroundIndex⟩
  | @fresh job dataset hjob hopen hnone hroom =>
    obtain ⟨hid, hround, -⟩ := runningJob_fields (currentTimestamp now) job
    exact ⟨(h.jobs job (getActive_mem hjob).1).congr (runningJob_name _ job),
      newLease_composed job _ _ _ _ _ hnow, hid.symm, rfl, by rw [hround]; rfl⟩

def taskIdOf (worker : PersistedWorkerRecord) (lease : LeasedAssignment) : String :=
  lease.assignment.assignmentId ++ "::worker:" ++ worker.workerId

theorem leaseWorkerTask_taskId {s : StateStore} (h : Issued s) (worker : PersistedWorkerRecord)
    (lease : LeasedAssignment) (now : ℕ) :
    (leaseWorkerTask s worker lease.assignment lease.job lease.dataset now).value.taskId =
      taskIdOf worker lease := by
  unfold leaseWorkerTask
  dsimp only
  split
  · rename_i task hfound
    have hid := h.tasks task (List.mem_of_find?_eq_some hfound)
    have hof := List.find?_some hfound
    simp only [Bool.and_eq_true, beq_iff_eq] at hof
    show task.taskId = taskIdOf worker lease
    rw [hid, taskIdOf, hof.1, hof.2]
  · rfl

/-- The characters of a task identifier which the parties choose. -/
def ownCharacters (job : PersistedTrainingJobRecord) (worker : PersistedWorkerRecord) : ℕ :=
  job.tenantId.toList.length + job.modelId.toList.length + job.datasetId.toList.length +
    (toString (max 1 job.currentRound)).toList.length + worker.trainerClientId.toList.length +
    worker.workerId.toList.length

theorem taskId_valid_iff {worker : PersistedWorkerRecord} {lease : LeasedAssignment}
    (h : IssuedLease worker lease) (hworker : Allowed worker.workerId)
    (htrainer : Allowed worker.trainerClientId) :
    validateIdentifier (taskIdOf worker lease) "task_id" false = "" ↔
      ownCharacters lease.job worker ≤ 46 := by
  obtain ⟨now, hnow, htime⟩ := h.assignment.issuedAt
  have htask : taskIdOf worker lease = lease.job.jobId ++ "::round:" ++
      toString (max 1 lease.job.currentRound) ++ "::client:" ++ worker.trainerClientId ++ "::" ++
        currentTimestamp now ++ "::worker:" ++ worker.workerId := by
    rw [taskIdOf, h.assignment.assignmentId, leasePrefix, htime, h.jobId, h.round, h.client]
  have hallowed : Allowed (taskIdOf worker lease) := by
    have hseparators : Allowed "::round:" ∧ Allowed "::client:" ∧ Allowed "::" ∧
        Allowed "::worker:" := by
      unfold Allowed
      decide
    obtain ⟨hround, hclient, htime, hof⟩ := hseparators
    rw [htask]
    simp only [allowed_append]
    exact ⟨⟨⟨⟨⟨⟨⟨⟨h.job.allowed, hround⟩, allowed_toString _⟩, hclient⟩, htrainer⟩, htime⟩,
      allowed_currentTimestamp now⟩, hof⟩, hworker⟩
  have hlength : (taskIdOf worker lease).toList.length = ownCharacters lease.job worker + 82 := by
    have hround : "::round:".toList.length = 8 := rfl
    have hclient : "::client:".toList.length = 9 := rfl
    have htime : "::".toList.length = 2 := rfl
    have hof : "::worker:".toList.length = 9 := rfl
    rw [htask, ownCharacters]
    simp only [String.toList_append, List.length_append]
    rw [h.job.length, currentTimestamp_length hnow, hround, hclient, htime, hof]
    omega
  rw [validateIdentifier_eq_empty (by decide), hlength]
  constructor
  · rintro ⟨-, hshort, -⟩
    omega
  · intro hshort
    refine ⟨?_, by omega, hallowed⟩
    intro hempty
    rw [hempty] at hlength
    simp at hlength

theorem allowed_of_scope {t m : String} (h : validateAdminScope t m = "") : Allowed t ∧ Allowed m := by
  unfold validateAdminScope at h
  dsimp only at h
  split at h
  · rename_i hrefused
    exact absurd h hrefused
  · rename_i haccepted
    exact ⟨.of_valid (by decide) (not_not.mp haccepted), .of_valid (by decide) h⟩

theorem requestedJob_vetted {q : CreateTrainingJobRequest} (h : checkCreateTrainingJob q = "") :
    Vetted (.createTrainingJob (requestedJob q)) := by
  unfold checkCreateTrainingJob at h
  dsimp only at h
  by_cases hscope : validateAdminScope q.tenantId q.modelId = ""
  · by_cases hdataset : validateIdentifier q.datasetId "dataset_id" false = ""
    · obtain ⟨htenant, hmodel⟩ := allowed_of_scope hscope
      exact ⟨rfl, htenant, hmodel, .of_valid (by decide) hdataset⟩
    · rw [if_neg (not_not.mpr hscope), if_pos hdataset] at h
      exact absurd h hdataset
  · rw [if_pos hscope] at h
    exact absurd h hscope

theorem workerRecord_vetted {q : WorkerRegistration} (h : checkRegisterWorker q = "") (now : String) :
    Vetted (.upsertWorker (workerRecord q now)) := by
  unfold checkRegisterWorker at h
  dsimp only at h
  split at h
  · rename_i hrefused
    exact absurd h hrefused
  split at h
  · rename_i hrefused
    exact absurd h hrefused
  split at h
  · rename_i hrefused
    exact absurd h hrefused
  · exact Allowed.of_valid (by decide) h

variable {F : Type} {d : Deployment F} {s s' : Server F} {a : Action F}

theorem federatedOperation_vetted {now : ℕ} {call : FederatedCall F} {op : Operation}
    (h : federatedOperation d now call = some op) : Vetted op := by
  cases call with
  | registerClient info p => cases p <;> cases h <;> trivial
  | trainingConfig q p =>
    cases p with
    | lease v keyVersion =>
      cases h
      trivial
    | _ => cases h
  | submitWeights q peer serial p => cases p <;> cases h <;> trivial

theorem callOperation_vetted {call : Call F} {op : Operation} (h : callOperation d call = some op) :
    Vetted op := by
  cases call with
  | registerWorker q peer p =>
    cases p with
    | record registeredAt =>
      cases h
      trivial
    | _ => cases h
  | leaseTrainingTask q worker p => cases p <;> cases h <;> trivial
  | rollbackModel target p => cases h
  | rotateAtRestKey keyVersion =>
    cases h
    trivial

theorem storeOperation_vetted {op : Operation} {now : ℕ}
    (h : storeOperation d s a = some (op, now)) : Vetted op := by
  cases a with
  | proceed o =>
    obtain ⟨op', hop, heq⟩ := Option.map_eq_some_iff.mp h
    obtain ⟨call, -, hcall⟩ := Option.bind_eq_some_iff.mp hop
    cases heq
    exact federatedOperation_vetted hcall
  | call i time =>
    obtain ⟨op', hop, heq⟩ := Option.map_eq_some_iff.mp h
    obtain ⟨call, -, hcall⟩ := Option.bind_eq_some_iff.mp hop
    cases heq
    exact callOperation_vetted hcall
  | registerWorker q peer time =>
    simp only [storeOperation] at h
    split at h
    · cases h
    · rename_i haccepted
      cases h
      simp only [Bool.or_eq_true, bne_iff_ne, not_or, not_not] at haccepted
      exact workerRecord_vetted haccepted.2 _
  | createTrainingJob q peer time =>
    simp only [storeOperation] at h
    split at h
    · cases h
    · rename_i haccepted
      cases h
      simp only [Bool.or_eq_true, bne_iff_ne, not_or, not_not] at haccepted
      exact requestedJob_vetted haccepted.1.2
  | reportTaskStatus q peer time =>
    simp only [storeOperation] at h
    split at h
    · cases h
    · cases h
      trivial
  | heartbeat q peer time =>
    simp only [storeOperation] at h
    split at h
    · cases h
    · cases h
      trivial
  | upsertDataset q peer time =>
    simp only [storeOperation] at h
    split at h
    · cases h
    · cases h
      trivial
  | rollbackModel q peer time =>
    simp only [storeOperation] at h
    split at h
    · cases h
    · cases h
      trivial
  | _ => cases h

theorem storeActions_vetted : ∀ action ∈ storeActions d s a, VettedAction action := by
  intro action haction
  unfold storeActions at haction
  split at haction
  · split at haction
    · cases haction
    · simp only [List.mem_cons, List.not_mem_nil, or_false] at haction
      rcases haction with rfl | rfl
      · trivial
      · trivial
  · split at haction
    · cases haction
    · rename_i hop
      rw [List.mem_singleton.mp haction]
      exact storeOperation_vetted hop

/-- Where the handler of a worker is, its task has the identifier of its lease. -/
def IssuedPoint (worker : PersistedWorkerRecord) : WorkerLeasePoint → Prop
  | .modelVersion | .lease _ => True
  | .leaseTask _ lease => IssuedLease worker lease
  | .modelRecord _ lease task => IssuedLease worker lease ∧ task.taskId = taskIdOf worker lease
  | .respond response =>
    IssuedLease worker response.lease ∧ response.task.taskId = taskIdOf worker response.lease

theorem stepWorkerLease_issued {w : World F} (h : Issued w.store) {q : WorkerTaskLeaseRequest}
    {worker : PersistedWorkerRecord} {now : ℕ} {p p' : WorkerLeasePoint}
    (hnow : ∀ v, p = .lease v → now < clockEnd) (hp : IssuedPoint worker p)
    (hnext : (stepWorkerLease d.config w q worker now p).2 = some p') : IssuedPoint worker p' := by
  cases p with
  | modelVersion =>
    cases hnext
    trivial
  | lease v =>
    obtain ⟨lease, hlease, rfl⟩ := Option.map_eq_some_iff.mp hnext
    exact lease_issued h worker _ _ _ _ _ (hnow v rfl) hlease
  | leaseTask v lease =>
    cases hnext
    exact ⟨hp, leaseWorkerTask_taskId h worker lease now⟩
  | modelRecord v lease task =>
    cases hnext
    unfold IssuedPoint
    dsimp only
    cases getActiveModelRecord w.store (leaseTenant q worker) (leaseModel q worker) with
    | none => exact hp
    | some model => exact hp
  | respond response => cases hnext

structure IssuedServer (s : Server F) : Prop where
  process : ∃ clock activated, IssuedProcess ⟨s.world.store, s.world.disk, clock, activated⟩
  calls : ∀ q worker p, .leaseTrainingTask q worker p ∈ s.calls →
    validateIdentifier worker.workerId "worker_id" false = "" ∧ Allowed worker.trainerClientId ∧
      IssuedPoint worker p

theorem IssuedServer.store (h : IssuedServer s) : Issued s.world.store := by
  obtain ⟨clock, activated, hprocess⟩ := h.process
  exact hprocess.store

theorem initial_issued (d : Deployment F) (start : Start) : IssuedServer (initial d start) where
  process := by
    have hempty : Issued (emptyStore d.config.auditEventRetention) := ⟨by simp [emptyStore],
      by simp [emptyStore], by simp [emptyStore], by simp [emptyStore]⟩
    exact ⟨0, [], initial_backed _, hempty, hempty⟩
  calls := by
    intro q worker p hcall
    cases hcall

variable [FloatArith F]

theorem lease_calls (hs : Process.step d s a = some s') {q : WorkerTaskLeaseRequest}
    {worker : PersistedWorkerRecord} {p : WorkerLeasePoint}
    (h : .leaseTrainingTask q worker p ∈ s'.calls) :
    .leaseTrainingTask q worker p ∈ s.calls ∨
    (p = .modelVersion ∧ validateIdentifier q.workerId "worker_id" false = "" ∧
      getWorker s.world.store q.workerId = some worker) ∨
    ∃ i now p₀, a = .call i now ∧ s.calls[i]? = some (.leaseTrainingTask q worker p₀) ∧
      (stepWorkerLease d.config s.world q worker now p₀).2 = some p := by
  have hother : ∀ {call : Call F}, call ≠ .leaseTrainingTask q worker p →
      .leaseTrainingTask q worker p ∈ s.calls ++ [call] →
      .leaseTrainingTask q worker p ∈ s.calls := by
    intro call hne hmem
    rcases List.mem_append.mp hmem with hold | hnew
    · exact hold
    · exact absurd (List.mem_singleton.mp hnew).symm hne
  cases step_stepped hs with
  | refused hrequest => exact .inl h
  | registerClient hidle hpasses => exact .inl h
  | getTrainingConfig hidle hpasses => exact .inl h
  | submitWeights hidle => exact .inl h
  | registering hcall => exact .inl h
  | configuring hcall => exact .inl h
  | submitting hcall => exact .inl h
  | registerWorker hworker hpasses => exact .inl (hother (by simp) h)
  | leaseTrainingTask hworker hpasses hknown =>
    rcases List.mem_append.mp h with hold | hnew
    · exact .inl hold
    · cases List.mem_singleton.mp hnew
      exact .inr (.inl ⟨rfl, hpasses, hknown⟩)
  | reportTaskStatus hworker hpasses => exact .inl h
  | heartbeat hworker hpasses => exact .inl h
  | upsertDataset hadmin hpasses => exact .inl h
  | createTrainingJob hadmin hpasses hdataset => exact .inl h
  | rollbackMissed hadmin hpasses hmissed => exact .inl h
  | rollbackModel hadmin hpasses htarget => exact .inl (hother (by simp) h)
  | rotateAtRestKey hadmin hrotated => exact .inl (hother (by simp) h)
  | @call i now call next hcall hnext =>
    rcases mem_replaceCall h with hold | hmoved
    · exact .inl hold
    right
    right
    cases call with
    | registerWorker req peer p₀ =>
      cases hnext
      obtain ⟨p', -, heq⟩ := Option.map_eq_some_iff.mp hmoved
      cases heq
    | leaseTrainingTask req worker' p₀ =>
      cases hnext
      obtain ⟨p', hp', heq⟩ := Option.map_eq_some_iff.mp hmoved
      cases heq
      exact ⟨i, now, p₀, rfl, hcall, hp'⟩
    | rollbackModel target p₀ =>
      cases p₀ with
      | readCheckpoint =>
        cases hnext
        dsimp only at hmoved
        split at hmoved
        · cases hmoved
        · cases hmoved
      | restore weights =>
        simp only [stepCall] at hnext
        split at hnext
        · cases hnext
        · cases hnext
          cases hmoved
    | rotateAtRestKey keyVersion =>
      cases hnext
      cases hmoved
  | restart hs =>
    obtain ⟨w, -, rfl⟩ := Option.map_eq_some_iff.mp hs
    cases h

/-- The clock of every store call of the step can be read. -/
def OnClock (d : Deployment F) (s : Server F) (a : Action F) : Prop :=
  ∀ action ∈ storeActions d s a, action.now < clockEnd

theorem step_issuedServer (h : IssuedServer s) (ha : OnClock d s a)
    (hs : Process.step d s a = some s') : IssuedServer s' where
  process := by
    obtain ⟨clock, activated, hprocess⟩ := h.process
    have hside : StoreSide s.world ⟨s.world.store, s.world.disk, clock, activated⟩ := ⟨rfl, rfl⟩
    obtain ⟨p', hexec, hside'⟩ := step_storeRun hside hs
    have hissued := exec_issued hprocess
      (fun action haction => ⟨storeActions_vetted action haction, ha action haction⟩) hexec
    obtain ⟨store, disk, clock', activated'⟩ := p'
    obtain ⟨rfl, rfl⟩ := hside'
    exact ⟨clock', activated', hissued⟩
  calls := by
    intro q worker p hcall
    rcases lease_calls hs hcall with hold | ⟨rfl, hvalid, hfound⟩ | ⟨i, now, p₀, rfl, hcall₀, hnext⟩
    · exact h.calls q worker p hold
    · have hworker := List.mem_of_find?_eq_some hfound
      have hid : worker.workerId = q.workerId := by simpa using List.find?_some hfound
      refine ⟨?_, h.store.workers worker hworker, trivial⟩
      rw [hid]
      exact hvalid
    · obtain ⟨hworker, htrainer, hpoint⟩ := h.calls q worker p₀ (List.mem_of_getElem? hcall₀)
      refine ⟨hworker, htrainer, stepWorkerLease_issued h.store ?_ hpoint hnext⟩
      rintro v rfl
      refine ha (.perform (.leaseTrainingAssignment (leaseTenant q worker) (leaseModel q worker)
        worker.trainerClientId v d.config.requiredClients d.config.defaultAssignmentTtlSeconds)
          now) ?_
      simp [storeActions, storeOperation, hcall₀, callOperation]

/-- The task which a worker is given can be reported on exactly when the scope, the
dataset, the round, the trainer client and the worker have few characters together. -/
theorem issued_task_reportable (d : Deployment F) (start : Start) (s : Server F)
    (h : Reaches (Process.step d) (OnClock d) (Process.initial d start) s)
    {q : WorkerTaskLeaseRequest} {worker : PersistedWorkerRecord} {response : WorkerTaskLease}
    (hcall : .leaseTrainingTask q worker (.respond response) ∈ s.calls) :
    (validateIdentifier response.task.taskId "task_id" false = "" ↔
      ownCharacters response.lease.job worker ≤ 46) ∧
    ∀ status detail progressPercent peer now, isAuthorizedWorker d peer = true →
      isAllowedTaskStatus status = true →
      (storeOperation d s (.reportTaskStatus
          ⟨worker.workerId, response.task.taskId, status, detail, progressPercent⟩ peer now) =
        some (.updateWorkerTaskStatus worker.workerId response.task.taskId (some status) detail
          progressPercent, now) ↔ ownCharacters response.lease.job worker ≤ 46) := by
  have hissued : IssuedServer s :=
    h.invariant (initial_issued d start) (fun _ _ _ hi ha hs => step_issuedServer hi ha hs)
  obtain ⟨hworker, htrainer, hlease, hid⟩ := hissued.calls q worker _ hcall
  have hvalid : validateIdentifier response.task.taskId "task_id" false = "" ↔
      ownCharacters response.lease.job worker ≤ 46 := by
    rw [hid]
    exact taskId_valid_iff hlease (.of_valid (by decide) hworker) htrainer
  refine ⟨hvalid, ?_⟩
  intro status detail progressPercent peer now hpeer hstatus
  rw [← hvalid]
  by_cases htask : validateIdentifier response.task.taskId "task_id" false = ""
  · simp [storeOperation, hpeer, hworker, htask, hstatus]
  · simp [storeOperation, htask]

def handedTask : Call Binary32 → Option (PersistedWorkerRecord × WorkerTaskLease)
  | .leaseTrainingTask _ worker (.respond response) => some (worker, response)
  | _ => none

theorem mem_of_handedTask {calls : List (Call Binary32)} {worker : PersistedWorkerRecord}
    {response : WorkerTaskLease} (h : calls.findSome? handedTask = some (worker, response)) :
    ∃ q, .leaseTrainingTask q worker (.respond response) ∈ calls := by
  obtain ⟨call, hcall, hhanded⟩ := List.exists_of_findSome?_eq_some h
  unfold handedTask at hhanded
  split at hhanded
  · cases hhanded
    exact ⟨_, hcall⟩
  · cases hhanded

def isOnClock (s : Server Binary32) (a : Action Binary32) : Bool :=
  (storeActions standardDeployment s a).all (fun action => decide (action.now < clockEnd))

theorem onClock_of_isOnClock (s : Server Binary32) (a : Action Binary32)
    (h : isOnClock s a = true) : OnClock standardDeployment s a := by
  intro action haction
  simpa using List.all_eq_true.mp h action haction

/-- A worker registers, a job is created in its scope, and the handler of the worker
gets as far as the answer. -/
def answeredWorker (tenantId modelId datasetId workerId trainerClientId : String) :
    List (Action Binary32) :=
  .registerWorker ⟨workerId, trainerClientId, tenantId, modelId, "h", "l", 1, [], 1⟩ workerPeer 0 ::
    calling 3 0 ++ [
      .upsertDataset { tenantId := tenantId, modelId := modelId, datasetId := datasetId
                       storageUri := "s3://scans", format := "dicom" } admin 0,
      .createTrainingJob ⟨tenantId, modelId, datasetId, 3, 1, 1, 30, ""⟩ admin 1] ++
    .leaseTrainingTask ⟨workerId, "", ""⟩ workerPeer :: calling 4 2

theorem issued_task_reportable_short : ∃ s q worker response,
    Reaches (Process.step standardDeployment) (OnClock standardDeployment)
      (Process.initial standardDeployment firstStart) s ∧
    .leaseTrainingTask q worker (.respond response) ∈ s.calls ∧
    response.task.taskId = taskAt2 ∧
    validateIdentifier response.task.taskId "task_id" false = "" := by
  have htest : (execTested (Process.step standardDeployment) isOnClock
      (answeredWorker "t" "m" "d" "w" "a") (Process.initial standardDeployment firstStart)).any
        (fun s => (s.calls.findSome? handedTask).any (fun handed =>
          handed.2.task.taskId == taskAt2 &&
            decide (ownCharacters handed.2.lease.job handed.1 ≤ 46))) = true := by
    decide +kernel
  rw [Option.any_eq_true] at htest
  obtain ⟨s, hs, hhanded⟩ := htest
  rw [Option.any_eq_true] at hhanded
  obtain ⟨⟨worker, response⟩, hfound, hfacts⟩ := hhanded
  obtain ⟨q, hcall⟩ := mem_of_handedTask hfound
  simp only [Bool.and_eq_true, beq_iff_eq, decide_eq_true_eq] at hfacts
  have hreaches := execTested_reaches isOnClock onClock_of_isOnClock _ hs
  exact ⟨s, q, worker, response, hreaches, hcall, hfacts.1,
    (issued_task_reportable standardDeployment firstStart s hreaches hcall).1.mpr hfacts.2⟩

/-- In the default scope a worker with the trainer it gets by default has no room for
the name of a dataset: nothing it reports on its task is taken. -/
theorem default_task_unreportable : ∃ s q worker response,
    Reaches (Process.step standardDeployment) (OnClock standardDeployment)
      (Process.initial standardDeployment firstStart) s ∧
    .leaseTrainingTask q worker (.respond response) ∈ s.calls ∧
    worker.workerId = "worker-1" ∧ response.lease.job.datasetId = "scans" ∧
    validateIdentifier response.task.taskId "task_id" false =
      "task_id exceeds 128 characters" := by
  have htest : (execTested (Process.step standardDeployment) isOnClock
      (answeredWorker "" "" "scans" "worker-1" "") (Process.initial standardDeployment firstStart)).any
        (fun s => (s.calls.findSome? handedTask).any (fun handed =>
          handed.1.workerId == "worker-1" && handed.2.lease.job.datasetId == "scans" &&
            validateIdentifier handed.2.task.taskId "task_id" false ==
              "task_id exceeds 128 characters")) = true := by
    decide +kernel
  rw [Option.any_eq_true] at htest
  obtain ⟨s, hs, hhanded⟩ := htest
  rw [Option.any_eq_true] at hhanded
  obtain ⟨⟨worker, response⟩, hfound, hfacts⟩ := hhanded
  obtain ⟨q, hcall⟩ := mem_of_handedTask hfound
  simp only [Bool.and_eq_true, beq_iff_eq] at hfacts
  have hreaches := execTested_reaches isOnClock onClock_of_isOnClock _ hs
  exact ⟨s, q, worker, response, hreaches, hcall, hfacts.1.1, hfacts.1.2, hfacts.2⟩

end PqFl.TaskIdentifiers
