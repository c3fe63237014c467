import PqFl.OrphanTasks

/-!
# Aggregated tasks

The advance of a round marks tasks aggregated which were submitted, and also
those which their workers reported completed. A submitted task has an assignment
with accepted weights; a completed one need not.
-/

set_option autoImplicit false

namespace PqFl.TruthfulTasks
open PqFl.Identifiers PqFl.Timestamps PqFl.StoreRecords PqFl.StateStore PqFl.ListUpdate
open PqFl.StoreRuns PqFl.Runs PqFl.LeaseLifecycle PqFl.WorkerSteps PqFl.OrphanTasks

def Truthful (s : StateStore) : Prop :=
  ∀ task ∈ s.workerTasks, task.status = .aggregated →
    ∃ a ∈ s.assignments, a.assignmentId = task.assignmentId ∧ a.status = .aggregated

def HasWeights (a : PersistedAssignmentLease) : Prop :=
  a.status = .submitted ∨ a.status = .aggregated

instance (a : PersistedAssignmentLease) : Decidable (HasWeights a) :=
  inferInstanceAs (Decidable (_ ∨ _))

/-- Workers report that a task is running, completed or failed. -/
def PlainReport : StoreAction → Prop
  | .perform (.updateWorkerTaskStatus _ _ status _ _) _ =>
    status = some .running ∨ status = some .completed ∨ status = some .failed
  | _ => True

/-- An assignment gets an identifier which no assignment of another job or round
has, and a task is leased for an assignment that there is. -/
def WellLeased (p : StoreProcess) : StoreAction → Prop
  | .perform (.leaseTrainingAssignment t m c version _ ttl) now =>
    ∀ job, getActiveTrainingJob p.store t m = some job → ∀ a ∈ p.store.assignments,
      a.assignmentId = (newLease job t m c version ttl now).assignmentId →
        a.jobId = job.jobId ∧ a.roundIndex = max 1 job.currentRound
  | .perform (.leaseWorkerTask _ assignment job _) _ =>
    ∃ a ∈ p.store.assignments, a.assignmentId = assignment.assignmentId ∧ a.jobId = job.jobId ∧
      a.roundIndex = assignment.roundIndex
  | _ => True

/-- When a round is advanced, weights were accepted for each of its tasks which
the worker reported completed. -/
def CompletedHasWeights (p : StoreProcess) : StoreAction → Prop
  | .perform (.advanceTrainingJobRound t m r _) _ =>
    ∀ job, getActiveTrainingJob p.store t m = some job → ∀ task ∈ p.store.workerTasks,
      isTaskOf job.jobId r task = true → task.status = .completed →
        ∃ a ∈ p.store.assignments, a.assignmentId = task.assignmentId ∧ HasWeights a
  | _ => True

/-- The assignments with one identifier agree on job and round, and so do their
tasks; a submitted task has an assignment with weights. -/
structure Linked (assignments : List PersistedAssignmentLease)
    (tasks : List PersistedWorkerTaskRecord) : Prop where
  unique : ∀ a ∈ assignments, ∀ b ∈ assignments, a.assignmentId = b.assignmentId →
    a.jobId = b.jobId ∧ a.roundIndex = b.roundIndex
  named : ∀ task ∈ tasks, ∃ a ∈ assignments, IsFor task a
  submitted : ∀ task ∈ tasks, task.status = .submitted →
    ∃ a ∈ assignments, IsFor task a ∧ HasWeights a

/-- An assignment which keeps its terms, its weights and an aggregation. -/
structure Kept (a a' : PersistedAssignmentLease) : Prop where
  id : a'.assignmentId = a.assignmentId
  job : a'.jobId = a.jobId
  round : a'.roundIndex = a.roundIndex
  weights : HasWeights a → HasWeights a'
  aggregated : a.status = .aggregated → a'.status = .aggregated

theorem Kept.refl (a : PersistedAssignmentLease) : Kept a a :=
  ⟨rfl, rfl, rfl, fun h => h, fun h => h⟩

theorem Kept.isFor {a a' : PersistedAssignmentLease} (h : Kept a a')
    {task : PersistedWorkerTaskRecord} (hfor : IsFor task a) : IsFor task a' :=
  ⟨h.id.trans hfor.1, h.job.trans hfor.2.1, h.round.trans hfor.2.2⟩

theorem lapse_kept (now : String) (a : PersistedAssignmentLease) : Kept a (lapse now a) := by
  rcases lapse_cases now a with hsame | ⟨hleased, -, -⟩
  · rw [hsame]
    exact .refl a
  · have hterms := (lapse_quiet now a).terms
    refine ⟨hterms.assignmentId, hterms.jobId, hterms.roundIndex, ?_, ?_⟩
    · rintro (h | h)
      · rw [hleased] at h
        cases h
      · rw [hleased] at h
        cases h
    · intro h
      rw [hleased] at h
      cases h

theorem closeAssignment_kept (jobId now : String) (round : ℤ) (a : PersistedAssignmentLease) :
    Kept a (closeAssignment jobId round now a) := by
  unfold closeAssignment
  by_cases h : a.jobId = jobId ∧ a.roundIndex = round
  · rw [if_pos h]
    refine ⟨rfl, rfl, rfl, ?_, ?_⟩
    · rintro (hstatus | hstatus)
      · exact .inr (by rw [hstatus])
      · exact .inr (by rw [hstatus])
    · intro hstatus
      dsimp only
      rw [hstatus]
  · rw [if_neg h]
    exact .refl a

theorem Linked.assignments {l l' : List PersistedAssignmentLease}
    {tasks : List PersistedWorkerTaskRecord} (h : Linked l tasks)
    (hl : List.Forall₂ Kept l l') : Linked l' tasks := by
  constructor
  · intro a' ha' b' hb' hid
    obtain ⟨a, ha, hkept⟩ := forall₂_of_mem hl ha'
    obtain ⟨b, hb, hkept'⟩ := forall₂_of_mem hl hb'
    rw [hkept.id, hkept'.id] at hid
    rw [hkept.job, hkept.round, hkept'.job, hkept'.round]
    exact h.unique a ha b hb hid
  · intro task htask
    obtain ⟨a, ha, hfor⟩ := h.named task htask
    obtain ⟨a', ha', hkept⟩ := forall₂_of_mem_left hl ha
    exact ⟨a', ha', hkept.isFor hfor⟩
  · intro task htask hstatus
    obtain ⟨a, ha, hfor, hweights⟩ := h.submitted task htask hstatus
    obtain ⟨a', ha', hkept⟩ := forall₂_of_mem_left hl ha
    exact ⟨a', ha', hkept.isFor hfor, hkept.weights hweights⟩

theorem truthful_kept {s s' : StateStore} (h : Truthful s)
    (hl : List.Forall₂ Kept s.assignments s'.assignments)
    (htasks : ∀ task' ∈ s'.workerTasks, task'.status = .aggregated → ∃ task ∈ s.workerTasks,
      task.status = .aggregated ∧ task'.assignmentId = task.assignmentId) : Truthful s' := by
  intro task' htask' hstatus'
  obtain ⟨task, htask, hstatus, hid⟩ := htasks task' htask' hstatus'
  obtain ⟨a, ha, hida, haggregated⟩ := h task htask hstatus
  obtain ⟨a', ha', hkept⟩ := forall₂_of_mem_left hl ha
  exact ⟨a', ha', by rw [hkept.id, hida, hid], hkept.aggregated haggregated⟩

theorem Linked.granted {l granted : List PersistedAssignmentLease}
    {tasks : List PersistedWorkerTaskRecord} (h : Linked l tasks)
    (hold : ∀ g ∈ granted, ∀ a ∈ l, a.assignmentId = g.assignmentId →
      a.jobId = g.jobId ∧ a.roundIndex = g.roundIndex)
    (hsame : ∀ g ∈ granted, ∀ g' ∈ granted, g = g') : Linked (l ++ granted) tasks := by
  constructor
  · intro a ha b hb hid
    rcases List.mem_append.mp ha with ha | ha
    · rcases List.mem_append.mp hb with hb | hb
      · exact h.unique a ha b hb hid
      · exact hold b hb a ha hid
    · rcases List.mem_append.mp hb with hb | hb
      · obtain ⟨hjob, hround⟩ := hold a ha b hb hid.symm
        exact ⟨hjob.symm, hround.symm⟩
      · rw [hsame a ha b hb]
        exact ⟨rfl, rfl⟩
  · intro task htask
    obtain ⟨a, ha, hfor⟩ := h.named task htask
    exact ⟨a, List.mem_append_left _ ha, hfor⟩
  · intro task htask hstatus
    obtain ⟨a, ha, hfor, hweights⟩ := h.submitted task htask hstatus
    exact ⟨a, List.mem_append_left _ ha, hfor, hweights⟩

theorem Linked.tasks {l : List PersistedAssignmentLease}
    {tasks tasks' : List PersistedWorkerTaskRecord} (h : Linked l tasks)
    (htasks : ∀ task' ∈ tasks', ∃ task ∈ tasks, task'.assignmentId = task.assignmentId ∧
      task'.jobId = task.jobId ∧ task'.roundIndex = task.roundIndex ∧
      (task'.status = .submitted → task.status = .submitted)) : Linked l tasks' := by
  constructor
  · exact h.unique
  · intro task' htask'
    obtain ⟨task, htask, hid, hjob, hround, -⟩ := htasks task' htask'
    obtain ⟨a, ha, hfor⟩ := h.named task htask
    refine ⟨a, ha, ?_⟩
    unfold IsFor
    rw [hid, hjob, hround]
    exact hfor
  · intro task' htask' hstatus'
    obtain ⟨task, htask, hid, hjob, hround, hstatus⟩ := htasks task' htask'
    obtain ⟨a, ha, hfor, hweights⟩ := h.submitted task htask (hstatus hstatus')
    refine ⟨a, ha, ?_, hweights⟩
    unfold IsFor
    rw [hid, hjob, hround]
    exact hfor

theorem submitFirst_kept {l : List PersistedAssignmentLease} {id now : String}
    {x : PersistedAssignmentLease} (hx : l.find? (fun a => a.assignmentId == id) = some x)
    (hleased : x.status = .leased) : List.Forall₂ Kept l
      (updateFirst (fun a => a.assignmentId == id) (submitAssignment now) l) := by
  apply updateFirst_forall₂ Kept.refl hx
  refine ⟨rfl, rfl, rfl, fun _ => .inl rfl, ?_⟩
  intro haggregated
  rw [hleased] at haggregated
  cases haggregated

theorem linked_accepted {l : List PersistedAssignmentLease}
    {tasks : List PersistedWorkerTaskRecord} {id now : String} {x : PersistedAssignmentLease}
    (h : Linked l tasks) (hx : l.find? (fun a => a.assignmentId == id) = some x)
    (hleased : x.status = .leased) :
    Linked (updateFirst (fun a => a.assignmentId == id) (submitAssignment now) l)
      (tasks.map (fun task => if task.assignmentId = id then submitTask now task else task)) := by
  have hid : x.assignmentId = id := by simpa using List.find?_some hx
  have hkept : List.Forall₂ Kept l
      (updateFirst (fun a => a.assignmentId == id) (submitAssignment now) l) :=
    submitFirst_kept hx hleased
  have hnew : submitAssignment now x ∈
      updateFirst (fun a => a.assignmentId == id) (submitAssignment now) l := mem_updateFirst hx
  have hlinked := h.assignments hkept
  have hfor : ∀ task ∈ tasks, task.assignmentId = id → IsFor task (submitAssignment now x) := by
    intro task htask htaskId
    obtain ⟨a, ha, hida, hjob, hround⟩ := hlinked.named task htask
    obtain ⟨hjob', hround'⟩ := hlinked.unique a ha _ hnew (by rw [hida, htaskId, ← hid]; rfl)
    exact ⟨hid.trans htaskId.symm, hjob'.symm.trans hjob, hround'.symm.trans hround⟩
  constructor
  · exact hlinked.unique
  · intro task' htask'
    obtain ⟨task, htask, rfl⟩ := List.mem_map.mp htask'
    obtain ⟨a, ha, hfora⟩ := hlinked.named task htask
    refine ⟨a, ha, ?_⟩
    by_cases htaskId : task.assignmentId = id
    · rw [if_pos htaskId]
      exact hfora
    · rw [if_neg htaskId]
      exact hfora
  · intro task' htask' hstatus
    obtain ⟨task, htask, rfl⟩ := List.mem_map.mp htask'
    by_cases htaskId : task.assignmentId = id
    · rw [if_pos htaskId]
      exact ⟨_, hnew, hfor task htask htaskId, .inl rfl⟩
    · rw [if_neg htaskId] at hstatus ⊢
      exact hlinked.submitted task htask hstatus

theorem closeTask_not_submitted (now : String) (task : PersistedWorkerTaskRecord) :
    (closeTask now task).status ≠ .submitted := by
  unfold closeTask
  cases hstatus : task.status with
  | leased => simp
  | running => simp
  | completed => simp
  | failed => simp
  | submitted => simp
  | aggregated => simp
  | missed => simp

theorem grants_unique {s : StateStore} {now : ℕ} {op : Operation} {g g' : PersistedAssignmentLease}
    (h : Grants s now op g) (h' : Grants s now op g') : g = g' := by
  cases op with
  | leaseTrainingAssignment t m c version minClients ttl =>
    obtain ⟨job, hjob, rfl⟩ := h
    obtain ⟨job', hjob', rfl⟩ := h'
    rw [Option.some.inj (hjob.symm.trans hjob')]
  | _ => exact h.elim

theorem grants_agree {p : StoreProcess} {now : ℕ} {op : Operation} {g a : PersistedAssignmentLease}
    (hleased : WellLeased p (.perform op now)) (h : Grants p.store now op g)
    (ha : a ∈ p.store.assignments) (hid : a.assignmentId = g.assignmentId) :
    a.jobId = g.jobId ∧ a.roundIndex = g.roundIndex := by
  cases op with
  | leaseTrainingAssignment t m c version minClients ttl =>
    obtain ⟨job, hjob, rfl⟩ := h
    exact hleased job hjob a ha hid
  | _ => exact h.elim

theorem perform_linked {p : StoreProcess} {now : ℕ} {op : Operation}
    (h : Linked p.store.assignments p.store.workerTasks) (hplain : PlainReport (.perform op now))
    (hleased : WellLeased p (.perform op now)) :
    Linked (perform p.store now op).store.assignments (perform p.store now op).store.workerTasks := by
  have hlapse := h.assignments (forall₂_map _ (lapse_kept (currentTimestamp now)) _)
  cases perform_taskStep p.store now op with
  | kept hassignments htasks hworkers =>
    rw [hassignments, htasks]
    exact h
  | swept hsweeps granted hgranted hassignments htasks hworkers =>
    rw [hassignments, htasks]
    apply hlapse.granted
    · intro g hg a ha hid
      obtain ⟨b, hb, rfl⟩ := List.mem_map.mp ha
      have hkept := lapse_kept (currentTimestamp now) b
      rw [hkept.job, hkept.round]
      exact grants_agree hleased (hgranted g hg) hb (hkept.id.symm.trans hid)
    · intro g hg g' hg'
      exact grants_unique (hgranted g hg) (hgranted g' hg')
  | accepted hcheck hfound hstatus hassignments htasks hworkers =>
    rw [hassignments, htasks]
    exact linked_accepted hlapse hfound hstatus
  | advanced hjob hassignments htasks hworkers =>
    rw [hassignments, htasks]
    apply (h.assignments (forall₂_map _ (closeAssignment_kept _ _ _) _)).tasks
    intro task' htask'
    obtain ⟨task, htask, rfl⟩ := List.mem_map.mp htask'
    refine ⟨task, htask, ?_⟩
    split
    · exact ⟨rfl, rfl, rfl, fun hstatus => absurd hstatus (closeTask_not_submitted _ task)⟩
    · exact ⟨rfl, rfl, rfl, fun hstatus => hstatus⟩
  | added hnew hassignments htasks hworkers =>
    rw [hassignments, htasks]
    exact h
  | registeredAgain hknown hassignments htasks hworkers =>
    rw [hassignments, htasks]
    exact h
  | leasedAgain hknown hassignments htasks hworkers =>
    rw [hassignments, htasks]
    apply h.tasks
    intro task' htask'
    obtain ⟨task, htask, rfl | ⟨-, rfl⟩⟩ := forall₂_of_mem (updateFirst_touched _ _ _) htask'
    · exact ⟨_, htask, rfl, rfl, rfl, fun hstatus => hstatus⟩
    · exact ⟨_, List.mem_of_find?_eq_some hknown, rfl, rfl, rfl, fun hstatus => hstatus⟩
  | leased hnew hassignments htasks hworkers =>
    rw [hassignments, htasks]
    obtain ⟨a, ha, hfor⟩ := hleased
    constructor
    · exact h.unique
    · exact forall_append_one h.named ⟨a, ha, hfor⟩
    · apply forall_append_one h.submitted
      intro hstatus
      cases hstatus
  | reported hfound hown hassignments htasks hworkers =>
    rw [hassignments, htasks]
    apply h.tasks
    intro task' htask'
    obtain ⟨task, htask, rfl | ⟨-, rfl⟩⟩ := forall₂_of_mem (updateFirst_touched _ _ _) htask'
    · exact ⟨_, htask, rfl, rfl, rfl, fun hstatus => hstatus⟩
    · refine ⟨_, List.mem_of_find?_eq_some hfound, rfl, rfl, rfl, ?_⟩
      intro hstatus
      rcases hplain with rfl | rfl | rfl
      · cases hstatus
      · cases hstatus
      · cases hstatus
  | beat hassignments htasks hworkers =>
    rw [hassignments, htasks]
    exact h

theorem closeAssignment_aggregated {a : PersistedAssignmentLease} {jobId : String} {round : ℤ}
    (now : String) (hweights : HasWeights a) (hjob : a.jobId = jobId) (hround : a.roundIndex = round) :
    (closeAssignment jobId round now a).status = .aggregated := by
  unfold closeAssignment
  rw [if_pos ⟨hjob, hround⟩]
  rcases hweights with hstatus | hstatus
  · rw [hstatus]
  · rw [hstatus]

theorem hasWeights_of_closed {a : PersistedAssignmentLease} {jobId now : String} {round : ℤ}
    (h : (closeAssignment jobId round now a).status = .aggregated) : HasWeights a := by
  unfold closeAssignment at h
  split at h
  · cases hstatus : a.status with
    | leased => simp [hstatus] at h
    | submitted => exact .inl hstatus
    | aggregated => exact .inr hstatus
    | missed => simp [hstatus] at h
    | expired => simp [hstatus] at h
  · exact .inr h

theorem closeTask_aggregated {task : PersistedWorkerTaskRecord} {now : String} :
    (closeTask now task).status = .aggregated ↔
      task.status = .submitted ∨ task.status = .completed ∨ task.status = .aggregated := by
  unfold closeTask
  cases hstatus : task.status with
  | leased => simp
  | running => simp
  | completed => simp
  | failed => simp
  | submitted => simp
  | aggregated => simp
  | missed => simp

theorem advanced_truthful {s : StateStore} {job : PersistedTrainingJobRecord} {round : ℤ}
    {now : String} (hl : Linked s.assignments s.workerTasks) (ht : Truthful s)
    (hcompleted : ∀ task ∈ s.workerTasks, isTaskOf job.jobId round task = true →
      task.status = .completed →
        ∃ a ∈ s.assignments, a.assignmentId = task.assignmentId ∧ HasWeights a)
    {task : PersistedWorkerTaskRecord} (htask : task ∈ s.workerTasks)
    (hof : isTaskOf job.jobId round task = true)
    (hstatus : (closeTask now task).status = .aggregated) :
    ∃ a ∈ s.assignments.map (closeAssignment job.jobId round now),
      a.assignmentId = task.assignmentId ∧ a.status = .aggregated := by
  have hweights : ∃ a ∈ s.assignments, a.assignmentId = task.assignmentId ∧ HasWeights a := by
    rcases closeTask_aggregated.mp hstatus with hsubmitted | hdone | haggregated
    · obtain ⟨a, ha, hfor, hweights⟩ := hl.submitted task htask hsubmitted
      exact ⟨a, ha, hfor.1, hweights⟩
    · exact hcompleted task htask hof hdone
    · obtain ⟨a, ha, hid, haggregated⟩ := ht task htask haggregated
      exact ⟨a, ha, hid, .inr haggregated⟩
  obtain ⟨a, ha, hid, hweights⟩ := hweights
  obtain ⟨b, hb, hfor⟩ := hl.named task htask
  obtain ⟨hjob, hround⟩ := hl.unique a ha b hb (hid.trans hfor.1.symm)
  have hterms : task.jobId = job.jobId ∧ task.roundIndex = round := by
    simpa [isTaskOf] using hof
  refine ⟨_, List.mem_map.mpr ⟨a, ha, rfl⟩, ?_, ?_⟩
  · exact (closeAssignment_kept job.jobId now round a).id.trans hid
  · exact closeAssignment_aggregated now hweights (by rw [hjob, hfor.2.1, hterms.1])
      (by rw [hround, hfor.2.2, hterms.2])

theorem perform_truthful {p : StoreProcess} {now : ℕ} {op : Operation}
    (hl : Linked p.store.assignments p.store.workerTasks) (ht : Truthful p.store)
    (hplain : PlainReport (.perform op now))
    (hcompleted : CompletedHasWeights p (.perform op now)) :
    Truthful (perform p.store now op).store := by
  cases perform_taskStep p.store now op with
  | kept hassignments htasks hworkers =>
    unfold Truthful
    rw [hassignments, htasks]
    exact ht
  | swept hsweeps granted hgranted hassignments htasks hworkers =>
    intro task htask hstatus
    rw [htasks] at htask
    obtain ⟨a, ha, hid, haggregated⟩ := ht task htask hstatus
    have hkept := lapse_kept (currentTimestamp now) a
    refine ⟨lapse (currentTimestamp now) a, ?_, hkept.id.trans hid, hkept.aggregated haggregated⟩
    rw [hassignments]
    exact List.mem_append_left _ (List.mem_map.mpr ⟨a, ha, rfl⟩)
  | accepted hcheck hfound hstatus hassignments htasks hworkers =>
    apply truthful_kept ht
    · rw [hassignments]
      refine forall₂_trans ?_ (forall₂_map _ (lapse_kept (currentTimestamp now)) _)
        (submitFirst_kept hfound hstatus)
      intro a b c hab hbc
      exact ⟨hbc.id.trans hab.id, hbc.job.trans hab.job, hbc.round.trans hab.round,
        fun h => hbc.weights (hab.weights h), fun h => hbc.aggregated (hab.aggregated h)⟩
    · intro task' htask' hstatus'
      rw [htasks] at htask'
      obtain ⟨task, htask, rfl⟩ := List.mem_map.mp htask'
      split at hstatus'
      · cases hstatus'
      · rename_i hother
        rw [if_neg hother]
        exact ⟨task, htask, hstatus', rfl⟩
  | advanced hjob hassignments htasks hworkers =>
    intro task' htask' hstatus'
    rw [htasks] at htask'
    rw [hassignments]
    obtain ⟨task, htask, rfl⟩ := List.mem_map.mp htask'
    split at hstatus'
    · rename_i hof
      rw [if_pos hof]
      obtain ⟨a, ha, hid, haggregated⟩ :=
        advanced_truthful hl ht (hcompleted _ hjob) htask hof hstatus'
      exact ⟨a, ha, hid, haggregated⟩
    · rename_i hother
      rw [if_neg hother]
      obtain ⟨a, ha, hid, haggregated⟩ := ht task htask hstatus'
      refine ⟨_, List.mem_map.mpr ⟨a, ha, rfl⟩, ?_, ?_⟩
      · exact (closeAssignment_kept _ _ _ a).id.trans hid
      · exact (closeAssignment_kept _ _ _ a).aggregated haggregated
  | added hnew hassignments htasks hworkers =>
    unfold Truthful
    rw [hassignments, htasks]
    exact ht
  | registeredAgain hknown hassignments htasks hworkers =>
    unfold Truthful
    rw [hassignments, htasks]
    exact ht
  | leasedAgain hknown hassignments htasks hworkers =>
    apply truthful_kept ht
    · rw [hassignments]
      exact List.forall₂_same.mpr (fun a _ => Kept.refl a)
    · intro task' htask' hstatus'
      rw [htasks] at htask'
      obtain ⟨task, htask, rfl | ⟨-, rfl⟩⟩ := forall₂_of_mem (updateFirst_touched _ _ _) htask'
      · exact ⟨_, htask, hstatus', rfl⟩
      · exact ⟨_, List.mem_of_find?_eq_some hknown, hstatus', rfl⟩
  | leased hnew hassignments htasks hworkers =>
    unfold Truthful
    rw [hassignments, htasks]
    apply forall_append_one ht
    intro hstatus
    cases hstatus
  | reported hfound hown hassignments htasks hworkers =>
    unfold Truthful
    rw [hassignments, htasks]
    intro task' htask' hstatus'
    obtain ⟨task, htask, rfl | ⟨-, rfl⟩⟩ := forall₂_of_mem (updateFirst_touched _ _ _) htask'
    · exact ht _ htask hstatus'
    · rcases hplain with rfl | rfl | rfl
      · cases hstatus'
      · cases hstatus'
      · cases hstatus'
  | beat hassignments htasks hworkers =>
    unfold Truthful
    rw [hassignments, htasks]
    exact ht

theorem advance_needs_weights {s : StateStore} {t m : String} {r v : ℤ} {now : ℕ}
    (h : Truthful (advanceTrainingJobRound s t m r v now).store)
    {job : PersistedTrainingJobRecord} (hjob : getActiveTrainingJob s t m = some job)
    {task : PersistedWorkerTaskRecord} (htask : task ∈ s.workerTasks)
    (hof : isTaskOf job.jobId r task = true) (hstatus : task.status = .completed) :
    ∃ a ∈ s.assignments, a.assignmentId = task.assignmentId ∧ HasWeights a := by
  obtain ⟨hassignments, htasks, -⟩ := advance_fields hjob r v now
  have hclosed : closeTask (currentTimestamp now) task ∈
      (advanceTrainingJobRound s t m r v now).store.workerTasks := by
    rw [htasks]
    exact List.mem_map.mpr ⟨task, htask, by rw [if_pos hof]⟩
  obtain ⟨a', ha', hid, haggregated⟩ := h _ hclosed (closeTask_aggregated.mpr (.inr (.inl hstatus)))
  rw [hassignments] at ha'
  obtain ⟨a, ha, rfl⟩ := List.mem_map.mp ha'
  exact ⟨a, ha, (closeAssignment_kept _ _ _ a).id.symm.trans hid, hasWeights_of_closed haggregated⟩

/-- Memory and file are linked, and tell the truth. -/
structure Honest (p : StoreProcess) : Prop where
  backed : Backed p
  linked : Linked p.store.assignments p.store.workerTasks
  diskLinked : Linked p.disk.assignments p.disk.workerTasks
  truthful : Truthful p.store
  diskTruthful : Truthful p.disk

/-- The steps of the runs in which aggregated tasks tell the truth. -/
def Proper (p : StoreProcess) (a : StoreAction) : Prop :=
  PlainReport a ∧ WellLeased p a ∧ CompletedHasWeights p a

theorem load_honest {image : StateStore} (htidy : Tidy image) (now : ℕ)
    (hl : Linked image.assignments image.workerTasks) (ht : Truthful image) :
    Linked (load image now).store.assignments (load image now).store.workerTasks ∧
      Truthful (load image now).store := by
  have hkept := forall₂_map _ (lapse_kept (currentTimestamp now)) image.assignments
  rw [← (load_fields htidy now).2.2.2.2.2.2] at hkept
  have htasks : ∀ task' ∈ (load image now).store.workerTasks, ∃ task ∈ image.workerTasks,
      task'.assignmentId = task.assignmentId ∧ task'.jobId = task.jobId ∧
        task'.roundIndex = task.roundIndex ∧ task'.status = task.status := by
    intro task' htask'
    have hloaded : records (load image now).store = records (normalizedRecords image) := by
      rw [load, records_trim, records_expire]
    rw [(records_eq hloaded).2.2.2.2.2.1] at htask'
    obtain ⟨task, htask, rfl⟩ := List.mem_map.mp htask'
    exact ⟨task, htask, rfl, rfl, rfl, rfl⟩
  constructor
  · apply (hl.assignments hkept).tasks
    intro task' htask'
    obtain ⟨task, htask, hid, hjob, hround, hstatus⟩ := htasks task' htask'
    exact ⟨task, htask, hid, hjob, hround, fun h => hstatus.symm.trans h⟩
  · apply truthful_kept ht hkept
    intro task' htask' haggregated
    obtain ⟨task, htask, hid, -, -, hstatus⟩ := htasks task' htask'
    exact ⟨task, htask, hstatus.symm.trans haggregated, hid⟩

theorem step_honest {p p' : StoreProcess} {a : StoreAction} (h : Honest p) (ha : Proper p a)
    (hs : StoreRuns.step p a = some p') : Honest p' := by
  have hbacked := step_backed h.backed hs
  cases a with
  | perform op now =>
    obtain rfl := Option.some.inj hs
    have hlinked := perform_linked h.linked ha.1 ha.2.1
    have htruthful := perform_truthful h.linked h.truthful ha.1 ha.2.2
    have hdiskLinked := step_onDisk (I := fun s => Linked s.assignments s.workerTasks) hs hlinked
      h.diskLinked
    exact ⟨hbacked, hlinked, hdiskLinked, htruthful, step_onDisk hs htruthful h.diskTruthful⟩
  | load now =>
    obtain rfl := Option.some.inj hs
    obtain ⟨hlinked, htruthful⟩ := load_honest h.backed.disk now h.diskLinked h.diskTruthful
    exact ⟨hbacked, hlinked, hlinked, htruthful, htruthful⟩

theorem run_honest {n : ℕ} {p : StoreProcess}
    (h : Reaches StoreRuns.step Proper (StoreRuns.initial n) p) : Honest p := by
  apply h.invariant
  · have hlinked : Linked [] [] := ⟨by simp, by simp, by simp⟩
    have htruthful : Truthful (emptyStore n) := by
      intro task htask
      cases htask
    exact ⟨initial_backed n, hlinked, hlinked, htruthful, htruthful⟩
  · intro p a p' hp ha hs
    exact step_honest hp ha hs

/-- In a run whose advances find weights for every completed task, aggregated
tasks tell the truth, and they still do after the next step exactly when that
one finds them too. -/
theorem aggregated_tasks_truthful (auditRetention : ℕ) (p : StoreProcess)
    (h : Reaches StoreRuns.step Proper (StoreRuns.initial auditRetention) p) :
    Truthful p.store ∧ ∀ a p', PlainReport a → WellLeased p a → StoreRuns.step p a = some p' →
      (Truthful p'.store ↔ CompletedHasWeights p a) := by
  have hp := run_honest h
  refine ⟨hp.truthful, ?_⟩
  intro a p' hplain hleased hs
  constructor
  · intro ht
    cases a with
    | load now => trivial
    | perform op now =>
      obtain rfl := Option.some.inj hs
      cases op with
      | advanceTrainingJobRound t m r v =>
        intro job hjob task htask hof hstatus
        exact advance_needs_weights ht hjob htask hof hstatus
      | _ => trivial
  · intro hcompleted
    exact (step_honest hp ⟨hplain, hleased, hcompleted⟩ hs).truthful

/-- The worker's client submits, the worker reports completion, and the round is
advanced. -/
def submittedTask : List StoreAction := startedTask ++ [
  .perform (.acceptTrainingAssignmentSubmission "t" "m" "c" "j" trainingLease.assignmentId 1 0) 5,
  .perform (.updateWorkerTaskStatus "w" trainingTask (some .completed) "" 100) 6,
  .perform (.advanceTrainingJobRound "t" "m" 1 1) 7]

def isProper (p : StoreProcess) : StoreAction → Bool
  | .perform (.leaseWorkerTask _ assignment job _) _ =>
    p.store.assignments.any (fun a => a.assignmentId == assignment.assignmentId &&
      a.jobId == job.jobId && a.roundIndex == assignment.roundIndex)
  | .perform (.updateWorkerTaskStatus _ _ status _ _) _ =>
    status == some .running || status == some .completed
  | .perform (.leaseTrainingAssignment _ _ _ _ _ _) _ => p.store.assignments.isEmpty
  | .perform (.advanceTrainingJobRound _ _ _ _) _ => p.store.workerTasks.all (fun task =>
      p.store.assignments.any (fun a => a.assignmentId == task.assignmentId &&
        a.status == .submitted))
  | .perform (.acceptTrainingAssignmentSubmission _ _ _ _ _ _ _) _ => true
  | .perform (.upsertWorker _) _ => true
  | .perform (.createTrainingJob _) _ => true
  | _ => false

theorem proper_of_isProper (p : StoreProcess) (a : StoreAction) (h : isProper p a = true) :
    Proper p a := by
  cases a with
  | load now => cases h
  | perform op now =>
    cases op with
    | leaseWorkerTask worker assignment job dataset =>
      obtain ⟨a, ha, hmatch⟩ := List.any_eq_true.mp h
      simp only [Bool.and_eq_true, beq_iff_eq] at hmatch
      exact ⟨trivial, ⟨a, ha, hmatch.1.1, hmatch.1.2, hmatch.2⟩, trivial⟩
    | updateWorkerTaskStatus workerId taskId status detail progressPercent =>
      rcases Bool.or_eq_true_iff.mp h with hstatus | hstatus
      · exact ⟨.inl (by simpa using hstatus), trivial, trivial⟩
      · exact ⟨.inr (.inl (by simpa using hstatus)), trivial, trivial⟩
    | leaseTrainingAssignment t m c version minClients ttl =>
      refine ⟨trivial, ?_, trivial⟩
      intro job _ a ha
      rw [List.isEmpty_iff.mp h] at ha
      cases ha
    | advanceTrainingJobRound t m r v =>
      refine ⟨trivial, trivial, ?_⟩
      intro job _ task htask _ _
      obtain ⟨a, ha, hmatch⟩ := List.any_eq_true.mp (List.all_eq_true.mp h task htask)
      simp only [Bool.and_eq_true, beq_iff_eq] at hmatch
      exact ⟨a, ha, hmatch.1, .inl hmatch.2⟩
    | acceptTrainingAssignmentSubmission t m c jobId id r v => exact ⟨trivial, trivial, trivial⟩
    | upsertWorker record => exact ⟨trivial, trivial, trivial⟩
    | createTrainingJob record => exact ⟨trivial, trivial, trivial⟩
    | _ => cases h

theorem aggregated_tasks_truthful_submitted : ∃ p,
    Reaches StoreRuns.step Proper (StoreRuns.initial 10) p ∧
    p.store.workerTasks.map (·.status) = [.aggregated] ∧ Truthful p.store := by
  have htest : (execTested StoreRuns.step isProper submittedTask (StoreRuns.initial 10)).any
      (fun p => p.store.workerTasks.map (·.status) == [.aggregated]) = true := by
    decide +kernel
  rw [Option.any_eq_true] at htest
  obtain ⟨p, hp, haggregated⟩ := htest
  have hreaches := execTested_reaches isProper proper_of_isProper submittedTask hp
  exact ⟨p, hreaches, by simpa using haggregated, (aggregated_tasks_truthful 10 p hreaches).1⟩

def twoClientJob : PersistedTrainingJobRecord := { plannedJob with plannedClients := 2 }

/-- The worker reports completion without weights, and another client's weights
complete the round. -/
def completedTask : List StoreAction := [
  .perform (.upsertWorker trainingWorker) 0,
  .perform (.createTrainingJob twoClientJob) 1,
  .perform (.leaseTrainingAssignment "t" "m" "c" 0 1 60) 2,
  .perform (.leaseWorkerTask trainingWorker trainingLease twoClientJob {}) 3,
  .perform (.updateWorkerTaskStatus "w" trainingTask (some .completed) "" 100) 4,
  .perform (.leaseTrainingAssignment "t" "m" "d" 0 1 60) 5,
  .perform (.acceptTrainingAssignmentSubmission "t" "m" "d" "j"
    (newLease plannedJob "t" "m" "d" 0 60 5).assignmentId 1 0) 6,
  .perform (.advanceTrainingJobRound "t" "m" 1 1) 7]

theorem completed_task_untruthful : ∃ p,
    Reaches StoreRuns.step (fun _ a => PlainReport a) (StoreRuns.initial 10) p ∧
    p.store.assignments.map (·.status) = [.missed, .aggregated] ∧ ¬ Truthful p.store := by
  have htest : (execTested StoreRuns.step (fun _ a => match a with
      | .perform (.updateWorkerTaskStatus _ _ status _ _) _ => status == some .completed
      | _ => true) completedTask (StoreRuns.initial 10)).any (fun p =>
        p.store.assignments.map (·.status) == [.missed, .aggregated] &&
        p.store.workerTasks.any (fun task => task.status == .aggregated &&
          p.store.assignments.all (fun a => a.assignmentId != task.assignmentId ||
            a.status != .aggregated))) = true := by
    decide +kernel
  rw [Option.any_eq_true] at htest
  obtain ⟨p, hp, hfinal⟩ := htest
  obtain ⟨hstatuses, htask⟩ := Bool.and_eq_true_iff.mp hfinal
  refine ⟨p, execTested_reaches _ ?_ completedTask hp, by simpa using hstatuses, ?_⟩
  · intro p a ha
    cases a with
    | load now => trivial
    | perform op now =>
      cases op with
      | updateWorkerTaskStatus workerId taskId status detail progressPercent =>
        exact .inr (.inl (by simpa using ha))
      | _ => trivial
  · intro ht
    obtain ⟨task, hmem, hmatch⟩ := List.any_eq_true.mp htask
    obtain ⟨hstatus, hall⟩ := Bool.and_eq_true_iff.mp hmatch
    obtain ⟨a, ha, hid, haggregated⟩ := ht task hmem (by simpa using hstatus)
    have hother := List.all_eq_true.mp hall a ha
    simp [hid, haggregated] at hother

end PqFl.TruthfulTasks
