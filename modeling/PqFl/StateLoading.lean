import PqFl.Durability

/-!
# Loading when writes fail

`Load` reads, expires, trims and saves within one `try`; its handler clears the
records and saves again. So a good file is lost when the first save fails and
the second one does not.
-/

set_option autoImplicit false

namespace PqFl.StateLoading
open PqFl.Identifiers PqFl.Timestamps PqFl.StoreRecords PqFl.StateStore PqFl.StoreRuns
open PqFl.FileReplacement PqFl.StateFile PqFl.Durability PqFl.ListUpdate

inductive SaveResult where
  | saved
  | noDirectory (what : String)
  | notOpened
  | notFlushed
  | notRenamed
  deriving DecidableEq

/-- `SaveLocked` with its exceptions; only a save which succeeds renames. -/
def saveLocked (path : String) (s : StateStore) (files : Files FileText) :
    SaveResult → Except String Unit × Files FileText
  | .saved => (.ok (), effects (replaceSteps [.cut] (.whole (storeJson s))) files)
  | .noDirectory what => (.error what, files)
  | .notOpened =>
    (.error ("Failed to open temporary state store for writing: " ++ path ++ ".tmp"), files)
  | .notFlushed =>
    (.error ("Failed to flush temporary state store: " ++ path ++ ".tmp"),
      { files with temp := some .cut })
  | .notRenamed =>
    (.error ("Failed to atomically replace state store at " ++ path), { files with temp := none })

theorem saveLocked_saved (path : String) (s : StateStore) (files : Files FileText) :
    saveLocked path s files .saved = (.ok (), ⟨some (.whole (storeJson s)), none⟩) := by
  rw [saveLocked, replace_done]

theorem saveLocked_failed (path : String) (s : StateStore) (files : Files FileText)
    {result : SaveResult} (h : result ≠ .saved) :
    (∃ what, (saveLocked path s files result).1 = .error what) ∧
      (saveLocked path s files result).2.target = files.target := by
  cases result with
  | saved => exact absurd rfl h
  | noDirectory what => exact ⟨⟨_, rfl⟩, rfl⟩
  | notOpened => exact ⟨⟨_, rfl⟩, rfl⟩
  | notFlushed => exact ⟨⟨_, rfl⟩, rfl⟩
  | notRenamed => exact ⟨⟨_, rfl⟩, rfl⟩

/-- What a call of `Load` leaves behind. -/
structure Loaded where
  result : Except String Unit
  store : StateStore
  files : Files FileText

/-- The handler of `Load` clears the records and saves them. -/
def clearAndSave (path : String) (auditRetention : ℕ) (files : Files FileText)
    (second : SaveResult) : Loaded :=
  let saved := saveLocked path (emptyStore auditRetention) files second
  ⟨saved.1, emptyStore auditRetention, saved.2⟩

/-- `StateStore::Load`, where the first and the second save go as given. -/
def loadStore (path : String) (s : StateStore) (files : Files FileText) (now : ℕ)
    (first second : SaveResult) : Loaded :=
  match files.target with
  | none =>
    let saved := saveLocked path s files first
    ⟨saved.1, s, saved.2⟩
  | some .cut => clearAndSave path s.auditRetention files first
  | some (.whole j) =>
    match loadJson s.auditRetention (currentTimestamp now) j with
    | none => clearAndSave path s.auditRetention files first
    | some records =>
      let records := trimAuditEventsLocked (expireAssignmentsLocked records (currentTimestamp now))
      match saveLocked path records files first with
      | (.ok (), files) => ⟨.ok (), records, files⟩
      | (.error _, files) => clearAndSave path s.auditRetention files second

theorem loadStore_saved {path : String} {s : StateStore} {files : Files FileText} {now : ℕ}
    (second : SaveResult) (hs : s = emptyStore s.auditRetention) :
    loadStore path s files now .saved second = ⟨.ok (),
      loadFile s.auditRetention files.target now,
      ⟨some (.whole (storeJson (loadFile s.auditRetention files.target now))), none⟩⟩ := by
  obtain ⟨target, temp⟩ := files
  cases target with
  | none =>
    simp only [loadStore, loadFile, saveLocked_saved]
    rw [← hs]
  | some text =>
    cases text with
    | cut => simp only [loadStore, loadFile, clearAndSave, saveLocked_saved]
    | whole j =>
      cases hj : loadJson s.auditRetention (currentTimestamp now) j with
      | none => simp only [loadStore, loadFile, hj, clearAndSave, saveLocked_saved]
      | some records => simp only [loadStore, loadFile, hj, saveLocked_saved]

/-- The records in a file, as `Load` reads them. -/
def decode (auditRetention now : ℕ) : Option FileText → Option StateStore
  | some (.whole j) => loadJson auditRetention (currentTimestamp now) j
  | _ => none

/-- After `Load` the file has the records it had before, and memory has them if
`Load` returns; assignments may expire and audit events may be trimmed. -/
structure KeepsState (auditRetention : ℕ) (before : Option FileText) (after : Loaded) : Prop where
  file : ∀ now, (decode auditRetention now after.files.target).map records =
    (decode auditRetention now before).map records
  memory : after.result = .ok () → ∀ now,
    some (records after.store) = (decode auditRetention now before).map records

/-- An image of a store with no records but assignments and audit events. -/
structure Bare (s : StateStore) : Prop where
  clients : s.clients = []
  models : s.models = []
  datasets : s.datasets = []
  trainingJobs : s.trainingJobs = []
  workers : s.workers = []
  workerTasks : s.workerTasks = []
  completedRounds : s.completedRounds = 0
  totalSubmissions : s.totalSubmissions = 0
  activeKeyVersion : s.activeKeyVersion = 1

theorem decode_storeJson (auditRetention now : ℕ) (s : StateStore) :
    decode auditRetention now (some (.whole (storeJson s))) =
      some { normalizedRecords s with auditRetention := max 1 auditRetention } :=
  load_storeJson auditRetention _ s

theorem normalizedRecords_idem (s : StateStore) :
    normalizedRecords (normalizedRecords s) = normalizedRecords s := by
  simp only [normalizedRecords, List.map_map, Function.comp_def, normalizeTenant_idem,
    normalizeModel_idem]

theorem records_normalized {s s' : StateStore} (h : records s = records s') (n : ℕ) :
    records { normalizedRecords s with auditRetention := n } =
      records { normalizedRecords s' with auditRetention := n } := by
  have hmap : ∀ x : StateStore, records { normalizedRecords x with auditRetention := n } =
      { normalizedRecords (records x) with auditRetention := n } := fun x => rfl
  rw [hmap, hmap, h]

theorem records_reloaded (n : ℕ) (x : StateStore) (now : String) :
    records { normalizedRecords (trimAuditEventsLocked (expireAssignmentsLocked
      { normalizedRecords x with auditRetention := n } now)) with auditRetention := n } =
      records { normalizedRecords x with auditRetention := n } := by
  have hsame : records (trimAuditEventsLocked (expireAssignmentsLocked
      { normalizedRecords x with auditRetention := n } now)) =
        records { normalizedRecords x with auditRetention := n } := by
    rw [records_trim, records_expire]
  rw [records_normalized hsame]
  show records { normalizedRecords (normalizedRecords x) with auditRetention := n } = _
  rw [normalizedRecords_idem]

theorem bare_iff (auditRetention : ℕ) (x : StateStore) :
    records (emptyStore auditRetention) =
      records { normalizedRecords x with auditRetention := max 1 auditRetention } ↔ Bare x := by
  constructor
  · intro h
    simp only [records, normalizedRecords, emptyStore, StateStore.mk.injEq, eq_comm (a := []),
      List.map_eq_nil_iff] at h
    obtain ⟨-, hclients, hmodels, hdatasets, hjobs, -, hworkers, htasks, -, hcompleted, htotal,
      hversion⟩ := h
    exact ⟨hclients, hmodels, hdatasets, hjobs, hworkers, htasks, hcompleted.symm, htotal.symm,
      hversion.symm⟩
  · intro h
    simp only [records, normalizedRecords, emptyStore, h.clients, h.models, h.datasets,
      h.trainingJobs, h.workers, h.workerTasks, h.completedRounds, h.totalSubmissions,
      h.activeKeyVersion, List.map_nil]

/-- What `Load` reads from an image, once leases are expired and events trimmed. -/
def loadedImage (auditRetention : ℕ) (x : StateStore) (now : ℕ) : StateStore :=
  trimAuditEventsLocked (expireAssignmentsLocked
    { normalizedRecords x with auditRetention := max 1 auditRetention } (currentTimestamp now))

theorem records_loadedImage (auditRetention : ℕ) (x : StateStore) (now : ℕ) :
    records (loadedImage auditRetention x now) =
      records { normalizedRecords x with auditRetention := max 1 auditRetention } := by
  rw [loadedImage, records_trim, records_expire]

theorem loadStore_image (path : String) (s x : StateStore) (temp : Option FileText) (now : ℕ)
    (first second : SaveResult) :
    loadStore path s ⟨some (.whole (storeJson x)), temp⟩ now first second =
      match saveLocked path (loadedImage s.auditRetention x now)
          ⟨some (.whole (storeJson x)), temp⟩ first with
      | (.ok (), files) => ⟨.ok (), loadedImage s.auditRetention x now, files⟩
      | (.error _, files) => clearAndSave path s.auditRetention files second := by
  simp only [loadStore, load_storeJson]
  rfl

theorem keepsState_saved (path : String) (s x : StateStore) (temp : Option FileText) (now : ℕ)
    (second : SaveResult) : KeepsState s.auditRetention (some (.whole (storeJson x)))
      (loadStore path s ⟨some (.whole (storeJson x)), temp⟩ now .saved second) := by
  rw [loadStore_image, saveLocked_saved]
  constructor
  · intro later
    rw [decode_storeJson, decode_storeJson, Option.map_some, Option.map_some]
    congr 1
    exact records_reloaded _ x _
  · intro _ later
    rw [decode_storeJson, Option.map_some, records_loadedImage]

theorem loadStore_caught (path : String) (s x : StateStore) (temp : Option FileText) (now : ℕ)
    {first : SaveResult} (second : SaveResult) (h : first ≠ .saved) :
    ∃ temp', loadStore path s ⟨some (.whole (storeJson x)), temp⟩ now first second =
      clearAndSave path s.auditRetention ⟨some (.whole (storeJson x)), temp'⟩ second := by
  obtain ⟨⟨what, hresult⟩, htarget⟩ := saveLocked_failed path (loadedImage s.auditRetention x now)
    ⟨some (.whole (storeJson x)), temp⟩ h
  rw [loadStore_image]
  generalize saveLocked path (loadedImage s.auditRetention x now)
    ⟨some (.whole (storeJson x)), temp⟩ first = saved at hresult htarget
  obtain ⟨result, ⟨target, temp'⟩⟩ := saved
  dsimp only at hresult htarget
  subst hresult htarget
  exact ⟨temp', rfl⟩

theorem keepsState_thrown (path : String) (n : ℕ) (x : StateStore) (temp : Option FileText)
    {second : SaveResult} (h : second ≠ .saved) :
    KeepsState n (some (.whole (storeJson x)))
      (clearAndSave path n ⟨some (.whole (storeJson x)), temp⟩ second) := by
  obtain ⟨⟨what, hresult⟩, htarget⟩ := saveLocked_failed path (emptyStore n)
    ⟨some (.whole (storeJson x)), temp⟩ h
  constructor
  · intro later
    unfold clearAndSave
    rw [htarget]
  · intro hok
    unfold clearAndSave at hok
    dsimp only at hok
    rw [hresult] at hok
    cases hok

theorem keepsState_cleared (path : String) (n : ℕ) (x : StateStore) (temp : Option FileText) :
    KeepsState n (some (.whole (storeJson x)))
      (clearAndSave path n ⟨some (.whole (storeJson x)), temp⟩ .saved) ↔ Bare x := by
  rw [← bare_iff n x]
  have hafter : clearAndSave path n ⟨some (.whole (storeJson x)), temp⟩ .saved =
      ⟨.ok (), emptyStore n, ⟨some (.whole (storeJson (emptyStore n))), none⟩⟩ := by
    rw [clearAndSave, saveLocked_saved]
  have hempty : records { normalizedRecords (emptyStore n) with auditRetention := max 1 n } =
      records (emptyStore n) := rfl
  rw [hafter]
  constructor
  · intro h
    have hmemory := h.memory rfl 0
    rw [decode_storeJson, Option.map_some] at hmemory
    exact Option.some.inj hmemory
  · intro h
    constructor
    · intro later
      rw [decode_storeJson, decode_storeJson, Option.map_some, Option.map_some, hempty, h]
    · intro _ later
      rw [decode_storeJson, Option.map_some, h]

/-- Loading an image keeps it exactly if the first save succeeds, or the second
one fails too, or there was nothing to keep. -/
theorem load_keeps_iff (path : String) (s x : StateStore) (temp : Option FileText) (now : ℕ)
    (first second : SaveResult) :
    KeepsState s.auditRetention (some (.whole (storeJson x)))
        (loadStore path s ⟨some (.whole (storeJson x)), temp⟩ now first second) ↔
      first = .saved ∨ second ≠ .saved ∨ Bare x := by
  by_cases hfirst : first = .saved
  · subst hfirst
    exact iff_of_true (keepsState_saved path s x temp now second) (.inl rfl)
  · obtain ⟨temp', hcaught⟩ := loadStore_caught path s x temp now second hfirst
    rw [hcaught]
    by_cases hsecond : second = .saved
    · subst hsecond
      rw [keepsState_cleared]
      simp [hfirst]
    · exact iff_of_true (keepsState_thrown path _ x temp' hsecond) (.inr (.inl hsecond))

def oneClient : StateStore :=
  { emptyStore 10 with clients := [⟨"t", "m", "c", "site", 1, "", "", -1, ""⟩] }

theorem full_disk_clears_file : ¬ KeepsState 10 (some (.whole (storeJson oneClient)))
    (loadStore "state.json" (emptyStore 10) ⟨some (.whole (storeJson oneClient)), none⟩ 0
      .notFlushed .saved) := by
  intro h
  have hclients := congrArg (Option.map (fun s : StateStore => s.clients.length)) (h.file 0)
  revert hclients
  decide +kernel

end PqFl.StateLoading
