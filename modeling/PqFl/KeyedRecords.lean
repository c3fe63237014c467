import PqFl.ClientNames
import PqFl.Upserts
import PqFl.WorkerSteps

/-!
# Keyed records

Clients, datasets, workers and tasks are found by a key, each by an upsert of
its own. Every operation upserts in all four lists, so the keys are distinct in
every run, and what is written once stays.
-/

set_option autoImplicit false

namespace PqFl.KeyedRecords
open PqFl.Identifiers PqFl.Timestamps PqFl.StoreRecords PqFl.StateStore PqFl.ListUpdate
open PqFl.StoreRuns PqFl.Runs PqFl.LeaseLifecycle PqFl.WorkerSteps PqFl.CertificateBinding
open PqFl.Upserts

def datasetName (d : PersistedDatasetRecord) : String × String × String :=
  (d.tenantId, d.modelId, d.datasetId)

def taskKey (task : PersistedWorkerTaskRecord) : String × String :=
  (task.assignmentId, task.workerId)

structure ClientKept (c c' : PersistedClientRecord) : Prop where
  name : recordName c' = recordName c
  peerIdentity : c.peerIdentity ≠ "" → c'.peerIdentity = c.peerIdentity
  lastActiveRound : c.lastActiveRound ≤ c'.lastActiveRound
  registeredAt : c'.registeredAt = c.registeredAt

structure DatasetKept (d d' : PersistedDatasetRecord) : Prop where
  name : datasetName d' = datasetName d
  createdAt : d'.createdAt = d.createdAt

structure WorkerKept (w w' : PersistedWorkerRecord) : Prop where
  workerId : w'.workerId = w.workerId
  registeredAt : w'.registeredAt = w.registeredAt

def TaskKept (task task' : PersistedWorkerTaskRecord) : Prop := taskKey task' = taskKey task

theorem ClientKept.refl (c : PersistedClientRecord) : ClientKept c c :=
  ⟨rfl, fun _ => rfl, le_refl _, rfl⟩

theorem ClientKept.trans {c c' c'' : PersistedClientRecord} (h : ClientKept c c')
    (h' : ClientKept c' c'') : ClientKept c c'' where
  name := h'.name.trans h.name
  peerIdentity := by
    intro hne
    have hsame := h.peerIdentity hne
    rw [← hsame] at hne
    exact (h'.peerIdentity hne).trans hsame
  lastActiveRound := h.lastActiveRound.trans h'.lastActiveRound
  registeredAt := h'.registeredAt.trans h.registeredAt

theorem DatasetKept.refl (d : PersistedDatasetRecord) : DatasetKept d d := ⟨rfl, rfl⟩

theorem DatasetKept.trans {d d' d'' : PersistedDatasetRecord} (h : DatasetKept d d')
    (h' : DatasetKept d' d'') : DatasetKept d d'' :=
  ⟨h'.name.trans h.name, h'.createdAt.trans h.createdAt⟩

theorem WorkerKept.refl (w : PersistedWorkerRecord) : WorkerKept w w := ⟨rfl, rfl⟩

theorem WorkerKept.trans {w w' w'' : PersistedWorkerRecord} (h : WorkerKept w w')
    (h' : WorkerKept w' w'') : WorkerKept w w'' :=
  ⟨h'.workerId.trans h.workerId, h'.registeredAt.trans h.registeredAt⟩

/-- All lists are upserted. -/
structure StoreUpsert (s s' : StateStore) : Prop where
  clients : Upsert recordName ClientKept s.clients s'.clients
  datasets : Upsert datasetName DatasetKept s.datasets s'.datasets
  workers : Upsert (·.workerId) WorkerKept s.workers s'.workers
  workerTasks : Upsert taskKey TaskKept s.workerTasks s'.workerTasks

theorem merged_kept (record c : PersistedClientRecord) : ClientKept c (merged record c) where
  name := rfl
  peerIdentity := by
    intro hne
    simp [merged, hne]
  lastActiveRound := le_refl _
  registeredAt := rfl

theorem recordClientRegistration_upsert (s : StateStore) (record : PersistedClientRecord)
    (now : ℕ) : Upsert recordName ClientKept s.clients
      (recordClientRegistration s record now).store.clients := by
  unfold recordClientRegistration
  dsimp only
  split
  · exact .first ClientKept.refl (fun c _ => merged_kept record c)
  · rename_i hnone
    apply Upsert.added
    intro c hc heq
    apply hnone
    rw [List.any_eq_true]
    refine ⟨c, hc, ?_⟩
    rw [isClient_iff (n := ⟨normalizeTenant record.tenantId, normalizeModel record.modelId,
      record.clientId⟩)]
    exact heq

theorem updateClientLastRound_upsert (s : StateStore) (t m clientId : String) (round : ℤ) :
    Upsert recordName ClientKept s.clients
      (updateClientLastRound s t m clientId round).store.clients := by
  apply Upsert.first ClientKept.refl
  intro c _
  exact ⟨rfl, fun _ => rfl, le_max_left _ _, rfl⟩

theorem perform_clients_upsert (s : StateStore) (now : ℕ) (op : Operation) :
    Upsert recordName ClientKept s.clients (perform s now op).store.clients := by
  by_cases hrecord : ∃ record, op = .recordClientRegistration record
  · obtain ⟨record, rfl⟩ := hrecord
    exact recordClientRegistration_upsert s record now
  by_cases hround : ∃ t m c round, op = .updateClientLastRound t m c round
  · obtain ⟨t, m, c, round, rfl⟩ := hround
    exact updateClientLastRound_upsert s t m c round
  · push Not at hrecord hround
    exact .same ClientKept.refl (perform_clients_same hrecord hround)

theorem isDataset_iff {t m id : String} {d : PersistedDatasetRecord} :
    isDataset t m id d = true ↔ datasetName d = (t, m, id) := by
  simp [isDataset, datasetName, and_assoc]

theorem upsertDataset_upsert (s : StateStore) (record : PersistedDatasetRecord) (now : ℕ) :
    Upsert datasetName DatasetKept s.datasets (upsertDataset s record now).store.datasets := by
  simp only [upsertDataset, push_datasets]
  cases hfind : s.datasets.find? (isDataset (normalizeTenant record.tenantId)
      (normalizeModel record.modelId) record.datasetId) with
  | none =>
    apply Upsert.added
    intro d hd heq
    exact List.find?_eq_none.mp hfind d hd (isDataset_iff.mpr heq)
  | some existing =>
    apply Upsert.first DatasetKept.refl
    intro d hd
    obtain rfl := Option.some.inj (hfind.symm.trans hd)
    exact ⟨(isDataset_iff.mp (List.find?_some hfind)).symm, rfl⟩

theorem perform_datasets_upsert (s : StateStore) (now : ℕ) (op : Operation) :
    Upsert datasetName DatasetKept s.datasets (perform s now op).store.datasets := by
  by_cases hupsert : ∃ record, op = .upsertDataset record
  · obtain ⟨record, rfl⟩ := hupsert
    exact upsertDataset_upsert s record now
  · push Not at hupsert
    exact .same DatasetKept.refl (perform_datasets_same s now hupsert)

/-- What no update of a known worker changes. -/
def workerFixed (w : PersistedWorkerRecord) : String × String := (w.workerId, w.registeredAt)

theorem workerKept_of_fixed (w w' : PersistedWorkerRecord) (h : workerFixed w' = workerFixed w) :
    WorkerKept w w' := ⟨congrArg Prod.fst h, congrArg Prod.snd h⟩

theorem releaseAll_fixed (now : String) (tasks : List PersistedWorkerTaskRecord)
    (workers : List PersistedWorkerRecord) :
    (releaseAll now tasks workers).map workerFixed = workers.map workerFixed := by
  induction tasks generalizing workers with
  | nil => rfl
  | cons task tasks ih =>
    refine (ih _).trans ?_
    apply map_updateFirst
    intro w _
    rfl

theorem releaseActive_fixed (now : String) (tasks : List PersistedWorkerTaskRecord)
    (workers : List PersistedWorkerRecord) :
    (releaseActive now tasks workers).map workerFixed = workers.map workerFixed := by
  induction tasks generalizing workers with
  | nil => rfl
  | cons task tasks ih =>
    refine (ih _).trans ?_
    rw [List.map_map]
    apply List.map_congr_left
    intro w _
    simp only [Function.comp_apply]
    split
    · rfl
    · rfl

theorem reportToWorker_fixed (now : String) (task : PersistedWorkerTaskRecord)
    (w : PersistedWorkerRecord) : workerFixed (reportToWorker now task w) = workerFixed w := by
  unfold reportToWorker
  dsimp only
  split
  · rfl
  split
  · rfl
  split
  · rfl
  · rfl

theorem beatWorker_fixed (activeTaskId now : String) (w : PersistedWorkerRecord) :
    workerFixed (beatWorker activeTaskId now w) = workerFixed w := by
  unfold beatWorker
  split
  · rfl
  split
  · rfl
  · rfl

theorem perform_workers_upsert (s : StateStore) (now : ℕ) (op : Operation) :
    Upsert (·.workerId) WorkerKept s.workers (perform s now op).store.workers := by
  cases perform_taskStep s now op with
  | kept hassignments htasks hworkers => exact .same WorkerKept.refl hworkers
  | swept hsweeps granted hgranted hassignments htasks hworkers =>
    exact .same WorkerKept.refl hworkers
  | accepted hcheck hfound hleased hassignments htasks hworkers =>
    rw [hworkers]
    exact .of_map workerKept_of_fixed (releaseAll_fixed _ _ _)
  | advanced hjob hassignments htasks hworkers =>
    rw [hworkers]
    exact .of_map workerKept_of_fixed (releaseActive_fixed _ _ _)
  | added hnew hassignments htasks hworkers =>
    rw [hworkers]
    apply Upsert.added
    intro w hw heq
    exact List.find?_eq_none.mp hnew w hw (beq_iff_eq.mpr heq)
  | registeredAgain hknown hassignments htasks hworkers =>
    rw [hworkers]
    apply Upsert.first WorkerKept.refl
    intro w hw
    obtain rfl := Option.some.inj (hknown.symm.trans hw)
    have hid := List.find?_some hknown
    rw [beq_iff_eq] at hid
    exact ⟨hid.symm, rfl⟩
  | leasedAgain hknown hassignments htasks hworkers =>
    rw [hworkers]
    apply Upsert.every
    intro w
    split
    · exact ⟨rfl, rfl⟩
    · exact WorkerKept.refl w
  | leased hnew hassignments htasks hworkers =>
    rw [hworkers]
    exact .first WorkerKept.refl (fun w _ => ⟨rfl, rfl⟩)
  | reported hfound hown hassignments htasks hworkers =>
    rw [hworkers]
    exact .of_map workerKept_of_fixed (map_updateFirst (fun w _ => reportToWorker_fixed _ _ w) _)
  | beat hassignments htasks hworkers =>
    rw [hworkers]
    exact .of_map workerKept_of_fixed (map_updateFirst (fun w _ => beatWorker_fixed _ _ w) _)

theorem taskKept_refl (task : PersistedWorkerTaskRecord) : TaskKept task task := rfl

theorem perform_tasks_upsert (s : StateStore) (now : ℕ) (op : Operation) :
    Upsert taskKey TaskKept s.workerTasks (perform s now op).store.workerTasks := by
  cases perform_taskStep s now op with
  | kept hassignments htasks hworkers => exact .same taskKept_refl htasks
  | swept hsweeps granted hgranted hassignments htasks hworkers => exact .same taskKept_refl htasks
  | accepted hcheck hfound hleased hassignments htasks hworkers =>
    rw [htasks]
    apply Upsert.every
    intro task
    split
    · rfl
    · rfl
  | advanced hjob hassignments htasks hworkers =>
    rw [htasks]
    apply Upsert.every
    intro task
    split
    · rfl
    · rfl
  | added hnew hassignments htasks hworkers => exact .same taskKept_refl htasks
  | registeredAgain hknown hassignments htasks hworkers => exact .same taskKept_refl htasks
  | leasedAgain hknown hassignments htasks hworkers =>
    rw [htasks]
    apply Upsert.first taskKept_refl
    intro task htask
    obtain rfl := Option.some.inj (hknown.symm.trans htask)
    simp only [TaskKept, taskKey]
  | leased hnew hassignments htasks hworkers =>
    rw [htasks]
    apply Upsert.added
    intro task htask heq
    obtain ⟨hassignment, hworker⟩ := Prod.mk.inj heq
    apply List.find?_eq_none.mp hnew task htask
    rw [isTaskFor, Bool.and_eq_true]
    exact ⟨beq_iff_eq.mpr hassignment, beq_iff_eq.mpr hworker⟩
  | reported hfound hown hassignments htasks hworkers =>
    rw [htasks]
    apply Upsert.first taskKept_refl
    intro task htask
    obtain rfl := Option.some.inj (hfound.symm.trans htask)
    rfl
  | beat hassignments htasks hworkers => exact .same taskKept_refl htasks

theorem perform_upsert (s : StateStore) (now : ℕ) (op : Operation) :
    StoreUpsert s (perform s now op).store where
  clients := perform_clients_upsert s now op
  datasets := perform_datasets_upsert s now op
  workers := perform_workers_upsert s now op
  workerTasks := perform_tasks_upsert s now op

theorem load_workerTasks (image : StateStore) (now : ℕ) :
    (load image now).store.workerTasks = image.workerTasks.map (fun r => { r with
      tenantId := normalizeTenant r.tenantId, modelId := normalizeModel r.modelId }) := by
  have hloaded : records (load image now).store = records (normalizedRecords image) := by
    rw [load, records_trim, records_expire]
  exact (records_eq hloaded).2.2.2.2.2.1

theorem step_upsert {p p' : StoreProcess} {a : StoreAction} (h : Backed p)
    (hs : step p a = some p') : StoreUpsert p.store p'.store := by
  rcases step_cases hs with ⟨op, now, -, hstore, -⟩ | ⟨now, -, hstore, -⟩
  · rw [hstore]
    exact perform_upsert p.store now op
  · obtain ⟨hclients, -, hdatasets, -, hworkers, -, -⟩ := load_fields h.disk now
    obtain ⟨hclients', -, hdatasets', -, hworkers', htasks', -⟩ := records_eq h.same
    rw [hstore]
    constructor
    · exact .same ClientKept.refl (hclients.trans hclients')
    · exact .same DatasetKept.refl (hdatasets.trans hdatasets')
    · exact .same WorkerKept.refl (hworkers.trans hworkers')
    · rw [load_workerTasks, htasks']
      exact .every (fun _ => rfl)

structure UniqueKeys (s : StateStore) : Prop where
  clients : (s.clients.map recordName).Nodup
  datasets : (s.datasets.map datasetName).Nodup
  workers : (s.workers.map (·.workerId)).Nodup
  workerTasks : (s.workerTasks.map taskKey).Nodup

theorem uniqueKeys_empty (n : ℕ) : UniqueKeys (emptyStore n) :=
  ⟨List.nodup_nil, List.nodup_nil, List.nodup_nil, List.nodup_nil⟩

theorem UniqueKeys.upsert {s s' : StateStore} (h : UniqueKeys s) (hs : StoreUpsert s s') :
    UniqueKeys s' where
  clients := hs.clients.nodup (fun _ _ hkept => hkept.name) h.clients
  datasets := hs.datasets.nodup (fun _ _ hkept => hkept.name) h.datasets
  workers := hs.workers.nodup (fun _ _ hkept => hkept.workerId) h.workers
  workerTasks := hs.workerTasks.nodup (fun _ _ hkept => hkept) h.workerTasks

/-- Every record of the first store has become one of the second. -/
structure Survives (s s' : StateStore) : Prop where
  clients : Survive ClientKept s.clients s'.clients
  datasets : Survive DatasetKept s.datasets s'.datasets
  workers : Survive WorkerKept s.workers s'.workers
  workerTasks : Survive TaskKept s.workerTasks s'.workerTasks

theorem Survives.refl (s : StateStore) : Survives s s where
  clients := .refl ClientKept.refl _
  datasets := .refl DatasetKept.refl _
  workers := .refl WorkerKept.refl _
  workerTasks := .refl taskKept_refl _

theorem Survives.upsert {s s' s'' : StateStore} (h : Survives s s') (hs : StoreUpsert s' s'') :
    Survives s s'' where
  clients := h.clients.trans (fun _ _ _ => ClientKept.trans) (hs.clients.survive ClientKept.refl)
  datasets := h.datasets.trans (fun _ _ _ => DatasetKept.trans)
    (hs.datasets.survive DatasetKept.refl)
  workers := h.workers.trans (fun _ _ _ => WorkerKept.trans) (hs.workers.survive WorkerKept.refl)
  workerTasks := h.workerTasks.trans (fun _ _ _ hkept hkept' => hkept'.trans hkept)
    (hs.workerTasks.survive taskKept_refl)

theorem run_upserts {ok : StoreProcess → StoreAction → Prop} {p p' : StoreProcess}
    (hp : Backed p) (hkeys : UniqueKeys p.store) (h : Reaches step ok p p') :
    Backed p' ∧ UniqueKeys p'.store ∧ Survives p.store p'.store := by
  refine h.invariant (I := fun x => Backed x ∧ UniqueKeys x.store ∧ Survives p.store x.store)
    ⟨hp, hkeys, Survives.refl p.store⟩ ?_
  rintro x a y ⟨hx, hxkeys, hxs⟩ - hs
  have hupsert := step_upsert hx hs
  exact ⟨step_backed hx hs, hxkeys.upsert hupsert, hxs.upsert hupsert⟩

/-- What the records of two states of a run have in common. -/
structure WrittenOnce (s s' : StateStore) : Prop where
  clients : Persist recordName ClientKept s.clients s'.clients
  datasets : Persist datasetName DatasetKept s.datasets s'.datasets
  workers : Persist (·.workerId) WorkerKept s.workers s'.workers
  workerTasks : Persist taskKey TaskKept s.workerTasks s'.workerTasks

/-- In every run from an empty store keys are distinct, and between any two of
its states what is written once stays. -/
theorem records_keyed {n : ℕ} {p p' : StoreProcess} (h : Reaches step Free (initial n) p)
    (h' : Reaches step Free p p') : UniqueKeys p'.store ∧ WrittenOnce p.store p'.store := by
  obtain ⟨hbacked, hkeys, -⟩ := run_upserts (initial_backed n) (uniqueKeys_empty n) h
  obtain ⟨-, hkeys', hsurvive⟩ := run_upserts hbacked hkeys h'
  refine ⟨hkeys', ?_⟩
  constructor
  · exact hsurvive.clients.persist (fun _ _ hkept => hkept.name) hkeys'.clients
  · exact hsurvive.datasets.persist (fun _ _ hkept => hkept.name) hkeys'.datasets
  · exact hsurvive.workers.persist (fun _ _ hkept => hkept.workerId) hkeys'.workers
  · exact hsurvive.workerTasks.persist (fun _ _ hkept => hkept) hkeys'.workerTasks

/-- A client which is registered twice, in two spellings of one scope. -/
def spelled (tenantId peerIdentity registeredAt : String) : PersistedClientRecord where
  tenantId := tenantId
  modelId := "default-model"
  clientId := "site-a"
  peerIdentity := peerIdentity
  localDatasetSize := 1
  hardwareInfo := ""
  datasetFingerprint := ""
  lastActiveRound := 0
  registeredAt := registeredAt

def registerSpelled (tenantId peerIdentity registeredAt : String) : StoreAction :=
  .perform (.recordClientRegistration (spelled tenantId peerIdentity registeredAt)) 0

def registeredOnce : StoreProcess :=
  ⟨{ emptyStore 1 with clients := [spelled "default-tenant" "" "first"] },
    { emptyStore 1 with clients := [spelled "default-tenant" "" "first"] }, 0, []⟩

def registeredTwice : StoreProcess :=
  ⟨{ emptyStore 1 with clients := [spelled "default-tenant" "pqfl-client" "first"] },
    { emptyStore 1 with clients := [spelled "default-tenant" "pqfl-client" "first"] }, 0, []⟩

theorem records_keyed_spelled :
    UniqueKeys registeredTwice.store ∧ WrittenOnce registeredOnce.store registeredTwice.store := by
  have hfirst : step (initial 1) (registerSpelled "" "" "first") = some registeredOnce := by rfl
  have hsecond : step registeredOnce (registerSpelled "default-tenant" "pqfl-client" "second") =
      some registeredTwice := by rfl
  exact records_keyed (.next .start trivial hfirst) (.next .start trivial hsecond)

end PqFl.KeyedRecords
