import PqFl.FileReplacement
import PqFl.LeaseLifecycle
import PqFl.StateFile

/-!
# What a restart finds

A process keeps its records in memory and saves them by replacing the state
file. It simulates the runs of `StoreRuns`, whose `disk` is what the file reads
as. So a new process finds the records of the last completed operation, or of
the one that was cut off, but for leases which ran out.
-/

set_option autoImplicit false

namespace PqFl.Durability
open PqFl.Identifiers PqFl.Timestamps PqFl.StoreRecords PqFl.StateStore PqFl.ListUpdate
open PqFl.StoreRuns PqFl.Runs PqFl.LeaseLifecycle PqFl.FileReplacement PqFl.StateFile

theorem perform_auditRetention (s : StateStore) (now : ℕ) (op : Operation) :
    (perform s now op).store.auditRetention = s.auditRetention := by
  by_cases hdataset : ∃ record, op = .upsertDataset record
  · obtain ⟨record, rfl⟩ := hdataset
    simp only [perform, written, upsertDataset]
    split
    · exact congrArg Prod.fst (settings_push _ _)
    · exact congrArg Prod.fst (settings_push _ _)
  by_cases hversion : ∃ version, op = .updateActiveKeyVersion version
  · obtain ⟨version, rfl⟩ := hversion
    simp only [perform, written, updateActiveKeyVersion]
    split
    · rfl
    · exact congrArg Prod.fst (settings_push _ _)
  · have hsettings := perform_settings s now (fun record heq => hdataset ⟨record, heq⟩)
      (fun version heq => hversion ⟨version, heq⟩)
    exact congrArg Prod.fst hsettings

/-- The scope of a worker task is normal if that of its assignment is. -/
def NormalTasks (s : StateStore) : Prop :=
  ∀ task ∈ s.workerTasks, InNormalScope task.tenantId task.modelId

/-- Worker tasks are leased for assignments with a tenant and a model. -/
def NamesScope : Operation → Prop
  | .leaseWorkerTask _ assignment _ _ => assignment.tenantId ≠ "" ∧ assignment.modelId ≠ ""
  | _ => True

theorem inNormalScope_of_ne {t m : String} (h : t ≠ "" ∧ m ≠ "") : InNormalScope t m := by
  unfold InNormalScope normalizeTenant normalizeModel
  simp [h.1, h.2]

theorem perform_workerTasks {s : StateStore} (h : NormalTasks s) (now : ℕ) {op : Operation}
    (hop : NamesScope op) : NormalTasks (perform s now op).store := by
  unfold NormalTasks at h ⊢
  cases op with
  | leaseTrainingAssignment t m c version minClients ttl =>
    simpa [perform, written, (lease_completedRounds s t m c version minClients ttl now).2.2.2] using h
  | rollbackModel t m targetVersion =>
    simp only [perform, written, rollbackModel]
    split <;> simpa using h
  | updateActiveKeyVersion version =>
    simp only [perform, written, updateActiveKeyVersion]
    split <;> simpa using h
  | validateTrainingAssignmentSubmission t m c jobId id round version =>
    simp only [perform, written, validateTrainingAssignmentSubmission]
    split <;> simpa [updateAssignment] using h
  | acceptTrainingAssignmentSubmission t m c jobId id round version =>
    simp only [perform, written, acceptTrainingAssignmentSubmission]
    split
    · simpa using h
    · simpa using h
    · simpa [updateAssignment] using h
    · simp only [push_workerTasks, updateAssignment, expire_workerTasks]
      apply forall_map h
      intro task htask
      split
      · exact htask
      · exact htask
  | advanceTrainingJobRound t m round version =>
    simp only [perform, written, advanceTrainingJobRound]
    split
    · exact h
    · simp only [push_workerTasks]
      apply forall_map h
      intro task htask
      split
      · exact htask
      · exact htask
  | leaseWorkerTask worker assignment job dataset =>
    simp only [perform, written, leaseWorkerTask]
    split
    · rename_i task hfound
      apply forall_updateFirst h
      intro _ _
      exact h task (List.mem_of_find?_eq_some hfound)
    · simp only [push_workerTasks]
      exact forall_append_one h (inNormalScope_of_ne hop)
  | updateWorkerTaskStatus workerId taskId status detail progressPercent =>
    simp only [perform, written, updateWorkerTaskStatus]
    split
    · exact h
    · rename_i task hfound
      split
      · exact h
      · simp only [push_workerTasks]
        apply forall_updateFirst h
        intro _ _
        exact h task (List.mem_of_find?_eq_some hfound)
  | recordWorkerHeartbeat workerId activeTaskId detail =>
    simp only [perform, written, recordWorkerHeartbeat]
    split
    · exact h
    · split <;> simpa using h
  | _ => simpa [perform, written, recordClientRegistration, updateClientLastRound,
      recordWeightSubmission, recordAggregatedModel, recordAuditEvent, createTrainingJob,
      upsertDataset, upsertWorker] using h

structure Machine where
  store : StateStore
  files : Files FileText
  clock : ℕ

/-- Loading is the work of a new process. -/
def outcome (m : Machine) : StoreAction → Outcome Unit
  | .perform op now => perform m.store now op
  | .load now => ⟨(), loadFile m.store.auditRetention m.files.target now, true⟩

/-- The file steps of `SaveLocked`; the text is in the temporary file piece by piece. -/
def saveSteps (pieces : ℕ) (o : Outcome Unit) : List (FileStep FileText) :=
  if o.save then replaceSteps (List.replicate pieces .cut) (.whole (storeJson o.store)) else []

def after (m : Machine) (a : StoreAction) : Machine where
  store := (outcome m a).store
  files := effects (saveSteps 1 (outcome m a)) m.files
  clock := a.now

def step (m : Machine) (a : StoreAction) : Option Machine := some (after m a)

/-- What is on disk when the process stops within an action. -/
def stoppedFiles (m : Machine) (a : StoreAction) (pieces k : ℕ) : Files FileText :=
  effects ((saveSteps pieces (outcome m a)).take k) m.files

def initial (auditRetention : ℕ) : Machine := ⟨emptyStore auditRetention, ⟨none, none⟩, 0⟩

def OnTime (m : Machine) (a : StoreAction) : Prop := m.clock ≤ a.now ∧ a.now < clockEnd

/-- Worker tasks come with the scope of their assignment too. -/
def Usual (m : Machine) (a : StoreAction) : Prop :=
  OnTime m a ∧ ∀ op now, a = .perform op now → NamesScope op

def Holds (file : Option FileText) (disk : StateStore) : Prop :=
  file = some (.whole (storeJson disk)) ∨
    (file = none ∧ disk = emptyStore disk.auditRetention)

theorem load_empty (auditRetention now : ℕ) :
    (load (emptyStore auditRetention) now).store = emptyStore auditRetention := rfl

theorem loadFile_holds {file : Option FileText} {disk : StateStore} (h : Holds file disk)
    (auditRetention now : ℕ) : loadFile auditRetention file now =
      (load { disk with auditRetention := max 1 auditRetention } now).store := by
  rcases h with rfl | ⟨rfl, hempty⟩
  · exact loadFile_storeJson auditRetention disk now
  · rw [hempty]
    exact (load_empty auditRetention now).symm

structure Simulates (n : ℕ) (m : Machine) (p : StoreProcess) : Prop where
  store : m.store = p.store
  clock : m.clock = p.clock
  file : Holds m.files.target p.disk
  retention : p.store.auditRetention = max 1 n
  diskRetention : p.disk.auditRetention = max 1 n
  tasks : NormalTasks p.store

theorem initial_simulates (n : ℕ) : Simulates n (initial n) (StoreRuns.initial n) where
  store := rfl
  clock := rfl
  file := by
    refine .inr ⟨rfl, ?_⟩
    simp [StoreRuns.initial, emptyStore]
  retention := rfl
  diskRetention := rfl
  tasks := by simp [NormalTasks, StoreRuns.initial, emptyStore]

theorem load_retention (s : StateStore) (now : ℕ) :
    (load s now).store.auditRetention = s.auditRetention := by
  have h : records (load s now).store = records (normalizedRecords s) := by
    rw [load, records_trim, records_expire]
  exact congrArg (·.auditRetention) h

theorem load_workerTasks {image : StateStore} (h : NormalTasks image) (now : ℕ) :
    (load image now).store.workerTasks = image.workerTasks := by
  have hloaded : records (load image now).store = records (normalizedRecords image) := by
    rw [load, records_trim, records_expire]
  rw [(records_eq hloaded).2.2.2.2.2.1]
  apply map_normal
  intro task htask
  obtain ⟨ht, hm⟩ := h task htask
  rw [ht, hm]

theorem saved_file (m : Machine) (a : StoreAction) (h : (outcome m a).save = true) :
    (after m a).files.target = some (.whole (storeJson (outcome m a).store)) := by
  simp only [after, saveSteps, h, if_true]
  rw [replace_done]

theorem unsaved_file (m : Machine) (a : StoreAction) (h : (outcome m a).save = false) :
    (after m a).files = m.files := by
  simp only [after, saveSteps, h]
  rfl

theorem step_simulates {n : ℕ} {m : Machine} {p : StoreProcess} {a : StoreAction}
    (h : Simulates n m p) (hb : Backed p) (ha : Usual m a) :
    ∃ p', StoreRuns.step p a = some p' ∧ Simulates n (after m a) p' := by
  cases a with
  | perform op now =>
    refine ⟨_, rfl, ?_⟩
    have houtcome : outcome m (.perform op now) = perform p.store now op := by
      rw [← h.store]
      rfl
    have hretention := perform_auditRetention p.store now op
    have htasks := perform_workerTasks h.tasks now (ha.2 op now rfl)
    constructor
    · exact congrArg (·.store) houtcome
    · rfl
    · cases hsave : (perform p.store now op).save with
      | true =>
        left
        rw [saved_file m _ (by rw [houtcome, hsave]), houtcome]
        rfl
      | false =>
        rw [unsaved_file m _ (by rw [houtcome, hsave])]
        exact h.file
    · exact hretention.trans h.retention
    · cases hsave : (perform p.store now op).save with
      | true => exact hretention.trans h.retention
      | false => exact h.diskRetention
    · exact htasks
  | load now =>
    refine ⟨_, rfl, ?_⟩
    have hsame : (load p.disk now).store.auditRetention = max 1 n :=
      (load_retention p.disk now).trans h.diskRetention
    have houtcome : (outcome m (.load now)).store = (load p.disk now).store := by
      show loadFile m.store.auditRetention m.files.target now = _
      rw [loadFile_holds h.file, h.store, h.retention]
      have himage : { p.disk with auditRetention := max 1 (max 1 n) } = p.disk := by
        rw [← h.diskRetention]
        have hpos : max 1 p.disk.auditRetention = p.disk.auditRetention := by
          rw [h.diskRetention]
          omega
        rw [hpos]
      rw [himage]
    have hdisk : NormalTasks p.disk := by
      unfold NormalTasks
      rw [(records_eq hb.same).2.2.2.2.2.1]
      exact h.tasks
    constructor
    · exact houtcome
    · rfl
    · left
      rw [saved_file m _ rfl, houtcome]
    · exact hsame
    · exact hsame
    · show NormalTasks (load p.disk now).store
      unfold NormalTasks
      rw [load_workerTasks hdisk now]
      exact hdisk

theorem run_simulates {n : ℕ} {m : Machine} (h : Reaches step Usual (initial n) m) :
    ∃ p, Reaches StoreRuns.step Timely (StoreRuns.initial n) p ∧ Simulates n m p := by
  induction h with
  | start => exact ⟨_, .start, initial_simulates n⟩
  | next _ ha hs ih =>
    obtain ⟨p, hp, hsim⟩ := ih
    obtain rfl := Option.some.inj hs
    obtain ⟨p', hp', hsim'⟩ := step_simulates hsim (run_backed hp) ha
    refine ⟨p', hp.next ?_ hp', hsim'⟩
    unfold Timely
    rw [← hsim.clock]
    exact ha.1

/-- A lease which has run out is expired, any other is as it was. -/
structure RestoredLease (now : ℕ) (x y : PersistedAssignmentLease) : Prop where
  terms : SameTerms x y
  status : y.status = if x.status = .leased ∧ x.expiresAt ≤ currentTimestamp now then .expired
    else x.status
  same : y.status ≠ .expired → y = x

structure Restored (s : StateStore) (now : ℕ) (s' : StateStore) : Prop where
  clients : s'.clients = s.clients
  models : s'.models = s.models
  datasets : s'.datasets = s.datasets
  trainingJobs : s'.trainingJobs = s.trainingJobs
  workers : s'.workers = s.workers
  workerTasks : s'.workerTasks = s.workerTasks
  completedRounds : s'.completedRounds = s.completedRounds
  totalSubmissions : s'.totalSubmissions = s.totalSubmissions
  activeKeyVersion : s'.activeKeyVersion = s.activeKeyVersion
  assignments : List.Forall₂ (RestoredLease now) s.assignments s'.assignments

theorem hasLapsed_iff {x : PersistedAssignmentLease} (hdated : Dated x) (now : String) :
    hasLapsed now x = true ↔ x.status = .leased ∧ x.expiresAt ≤ now := by
  obtain ⟨deadline, hdeadline⟩ := hdated
  have hne : x.expiresAt ≠ "" := by
    rw [hdeadline]
    exact currentTimestamp_ne_empty deadline
  simp [hasLapsed, hne]

theorem lapse_restored {x : PersistedAssignmentLease} (hdated : Dated x) (now : ℕ) :
    RestoredLease now x (lapse (currentTimestamp now) x) := by
  have hiff := hasLapsed_iff hdated (currentTimestamp now)
  refine ⟨(lapse_quiet _ x).terms, ?_, ?_⟩
  · unfold lapse
    by_cases hlapsed : hasLapsed (currentTimestamp now) x = true
    · rw [if_pos hlapsed, if_pos (hiff.mp hlapsed)]
    · rw [if_neg hlapsed, if_neg (fun h => hlapsed (hiff.mpr h))]
  · intro hnot
    rcases lapse_cases (currentTimestamp now) x with hsame | ⟨-, -, hexpired⟩
    · exact hsame
    · exact absurd hexpired hnot

theorem lapsed_restored {clock now : ℕ} (hle : clock ≤ now) (hnow : now < clockEnd)
    {d x : PersistedAssignmentLease} (h : Lapsed clock d x) (hdated : Dated x) :
    RestoredLease now x (lapse (currentTimestamp now) d) := by
  have hquiet := reload_quiet hle hnow h
  rcases h with rfl | ⟨t, -, rfl⟩
  · exact lapse_restored hdated now
  · rcases lapse_cases (currentTimestamp t) d with hsame | ⟨-, -, hexpired⟩
    · rw [hsame] at hdated ⊢
      exact lapse_restored hdated now
    · have hstatus : (lapse (currentTimestamp now) d).status = .expired := by
        rcases hquiet.status with hstatus | ⟨hstep, -⟩
        · rw [hstatus, hexpired]
        · rw [hexpired] at hstep
          cases hstep
      refine ⟨hquiet.terms, ?_, fun hnot => absurd hstatus hnot⟩
      rw [hstatus, hexpired]
      simp

theorem records_counters {s s' : StateStore} (h : records s' = records s) :
    s'.totalSubmissions = s.totalSubmissions ∧ s'.activeKeyVersion = s.activeKeyVersion :=
  ⟨congrArg (·.totalSubmissions) h, congrArg (·.activeKeyVersion) h⟩

theorem restored_disk {p : StoreProcess} (hfacts : RunFacts p) (htasks : NormalTasks p.store)
    (auditRetention : ℕ) {now : ℕ} (hle : p.clock ≤ now) (hnow : now < clockEnd) :
    Restored p.store now
      (load { p.disk with auditRetention := max 1 auditRetention } now).store := by
  obtain ⟨hclients, hmodels, hdatasets, hjobs, hworkers, htask, hcount⟩ :=
    records_eq hfacts.backed.same
  obtain ⟨htotal, hversion⟩ := records_counters hfacts.backed.same
  let image : StateStore := { p.disk with auditRetention := max 1 auditRetention }
  have htidy : Tidy image := by
    obtain ⟨⟨h1, h2, h3, h4⟩, h5, h6, h7, h8⟩ := hfacts.backed.disk
    exact ⟨⟨h1, h2, h3, h4⟩, h5, h6, h7, h8⟩
  have himage : NormalTasks image := by
    show ∀ task ∈ p.disk.workerTasks, _
    rw [htask]
    exact htasks
  obtain ⟨lclients, lmodels, ldatasets, ljobs, lworkers, lcount, lleases⟩ := load_fields htidy now
  have hloaded : records (load image now).store = records (normalizedRecords image) := by
    rw [load, records_trim, records_expire]
  obtain ⟨ltotal, lversion⟩ := records_counters hloaded
  constructor
  · exact lclients.trans hclients
  · exact lmodels.trans hmodels
  · exact ldatasets.trans hdatasets
  · exact ljobs.trans hjobs
  · exact lworkers.trans hworkers
  · exact (load_workerTasks himage now).trans htask
  · exact lcount.trans hcount
  · exact ltotal.trans htotal
  · exact lversion.trans hversion
  · rw [lleases]
    apply List.forall₂_map_right_iff.mpr
    have hboth := (List.forall₂_and_left _ _).mpr ⟨hfacts.dated, hfacts.behind.leases.flip⟩
    exact hboth.imp (fun x d h => lapsed_restored hle hnow h.2 h.1)

theorem restored_between {n : ℕ} {m : Machine} (h : Reaches step Usual (initial n) m)
    (auditRetention : ℕ) {now : ℕ} (hle : m.clock ≤ now) (hnow : now < clockEnd) :
    Restored m.store now (loadFile auditRetention m.files.target now) := by
  obtain ⟨p, hp, hsim⟩ := run_simulates h
  rw [hsim.clock] at hle
  rw [loadFile_holds hsim.file, hsim.store]
  exact restored_disk (run_facts hp) hsim.tasks auditRetention hle hnow

theorem stopped_target (m : Machine) (a : StoreAction) (pieces k : ℕ) :
    (stoppedFiles m a pieces k).target = m.files.target ∨
      (stoppedFiles m a pieces k).target = (after m a).files.target := by
  unfold stoppedFiles
  cases hsave : (outcome m a).save with
  | false =>
    simp only [saveSteps, hsave, Bool.false_eq_true, if_false, List.take_nil]
    exact .inl rfl
  | true =>
    rw [saved_file m a hsave]
    simp only [saveSteps, hsave, if_true]
    exact replace_stopped _ _ k m.files

/-- A new process finds the records of the last completed action; if the old one
stopped within an action, those before it or after it. -/
def Recovers (ok : Machine → StoreAction → Prop) (m : Machine) : Prop :=
  (∀ auditRetention now, m.clock ≤ now → now < clockEnd →
    Restored m.store now (loadFile auditRetention m.files.target now)) ∧
  ∀ a, ok m a → ∀ pieces k auditRetention now, a.now ≤ now → now < clockEnd →
    Restored m.store now (loadFile auditRetention (stoppedFiles m a pieces k).target now) ∨
    Restored (after m a).store now
      (loadFile auditRetention (stoppedFiles m a pieces k).target now)

theorem run_recovers {n : ℕ} {m : Machine} (h : Reaches step Usual (initial n) m) :
    Recovers Usual m := by
  constructor
  · intro auditRetention now hle hnow
    exact restored_between h auditRetention hle hnow
  · intro a ha pieces k auditRetention now hle hnow
    rcases stopped_target m a pieces k with hold | hnew
    · left
      rw [hold]
      exact restored_between h auditRetention (ha.1.1.trans hle) hnow
    · right
      rw [hnew]
      exact restored_between (h.next ha rfl) auditRetention hle hnow

def idleWorker : PersistedWorkerRecord :=
  ⟨"w", "c", "t", "m", "h", "l", 1, ["gpu"], .idle, "", "", ""⟩

def plainJob : PersistedTrainingJobRecord :=
  ⟨"j", "t", "m", "d", 2, 1, 1, 30, .planned, 1, 0, 0, "", "", ""⟩

def leaseOf (tenantId modelId : String) : PersistedAssignmentLease :=
  ⟨"a", "j", tenantId, modelId, "d", "c", 1, 0, .leased, "", "", "", ""⟩

/-- A lease for a worker, which has run out when the process is started again. -/
def leasedTask : List StoreAction := [
  .load 0,
  .perform (.upsertWorker idleWorker) 1,
  .perform (.createTrainingJob plainJob) 2,
  .perform (.leaseTrainingAssignment "t" "m" "c" 0 1 60) 3,
  .perform (.leaseWorkerTask idleWorker (leaseOf "t" "m") plainJob {}) 4]

/-- The assignment of the task has no tenant. -/
def unnamedTask : List StoreAction := [
  .load 0, .perform (.leaseWorkerTask idleWorker (leaseOf "" "m") plainJob {}) 1]

instance (m : Machine) (a : StoreAction) : Decidable (OnTime m a) :=
  inferInstanceAs (Decidable (_ ∧ _))

def namesScope : StoreAction → Bool
  | .perform (.leaseWorkerTask _ assignment _ _) _ =>
    assignment.tenantId != "" && assignment.modelId != ""
  | _ => true

theorem usual_of_test {m : Machine} {a : StoreAction}
    (h : (decide (OnTime m a) && namesScope a) = true) : Usual m a := by
  obtain ⟨htime, hscope⟩ := Bool.and_eq_true_iff.mp h
  refine ⟨of_decide_eq_true htime, ?_⟩
  rintro op now rfl
  cases op with
  | leaseWorkerTask worker assignment job dataset => simpa [NamesScope, namesScope] using hscope
  | _ => trivial

theorem run_recovers_leasedTask : ∃ m, Reaches step Usual (initial 10) m ∧
    (loadFile 10 m.files.target 30003).assignments.map (·.status) = [.expired] ∧
    Recovers Usual m := by
  have hdata : (execTested step (fun m a => decide (OnTime m a) && namesScope a) leasedTask
      (initial 10)).map (fun m => (loadFile 10 m.files.target 30003).assignments.map (·.status)) =
        some [.expired] := by decide +kernel
  obtain ⟨m, hm, hstatus⟩ := Option.map_eq_some_iff.mp hdata
  have hrun : Reaches step Usual (initial 10) m :=
    execTested_reaches _ (fun _ _ => usual_of_test) leasedTask hm
  exact ⟨m, hrun, hstatus, run_recovers hrun⟩

theorem unnamedTask_moved : ∃ m, Reaches step OnTime (initial 10) m ∧ ¬ Recovers OnTime m := by
  have hdata : (execTested step (fun m a => decide (OnTime m a)) unnamedTask (initial 10)).map
      (fun m => (m.store.workerTasks.map (·.tenantId),
        (loadFile 10 m.files.target 2).workerTasks.map (·.tenantId), m.clock)) =
        some ([""], ["default-tenant"], 1) := by decide +kernel
  obtain ⟨m, hm, hfields⟩ := Option.map_eq_some_iff.mp hdata
  obtain ⟨hstore, hloaded, hclock⟩ := by
    simpa only [Prod.mk.injEq] using hfields
  have hrun : Reaches step OnTime (initial 10) m :=
    execTested_reaches _ (fun _ _ => of_decide_eq_true) unnamedTask hm
  refine ⟨m, hrun, fun hrecovers => ?_⟩
  have hrestored := hrecovers.1 10 2 (by omega) (by decide)
  rw [hrestored.workerTasks, hstore] at hloaded
  simp at hloaded

end PqFl.Durability
