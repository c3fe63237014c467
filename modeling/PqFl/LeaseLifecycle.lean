import Mathlib.Logic.Relation
import PqFl.StoreRuns

/-!
# The life of an assignment

An assignment is leased and then expires, is missed, or is submitted and later
aggregated. Its terms never change, and it is submitted only by an accepted
submission of the client it was leased to, in its scope and round, before it
runs out.
-/

set_option autoImplicit false

namespace PqFl.LeaseLifecycle
open PqFl.Identifiers PqFl.Timestamps PqFl.StoreRecords PqFl.StateStore PqFl.ListUpdate
open PqFl.JobLedger PqFl.StoreRuns PqFl.Runs

/-- What an assignment was leased for. -/
structure SameTerms (a a' : PersistedAssignmentLease) : Prop where
  assignmentId : a'.assignmentId = a.assignmentId
  jobId : a'.jobId = a.jobId
  tenantId : a'.tenantId = a.tenantId
  modelId : a'.modelId = a.modelId
  datasetId : a'.datasetId = a.datasetId
  clientId : a'.clientId = a.clientId
  roundIndex : a'.roundIndex = a.roundIndex
  baseModelVersion : a'.baseModelVersion = a.baseModelVersion
  issuedAt : a'.issuedAt = a.issuedAt
  expiresAt : a'.expiresAt = a.expiresAt

theorem SameTerms.refl (a : PersistedAssignmentLease) : SameTerms a a :=
  ⟨rfl, rfl, rfl, rfl, rfl, rfl, rfl, rfl, rfl, rfl⟩

theorem SameTerms.symm {a b : PersistedAssignmentLease} (h : SameTerms a b) : SameTerms b a :=
  ⟨h.1.symm, h.2.symm, h.3.symm, h.4.symm, h.5.symm, h.6.symm, h.7.symm, h.8.symm, h.9.symm,
    h.10.symm⟩

theorem SameTerms.trans {a b c : PersistedAssignmentLease} (h : SameTerms a b)
    (h' : SameTerms b c) : SameTerms a c :=
  ⟨h'.1.trans h.1, h'.2.trans h.2, h'.3.trans h.3, h'.4.trans h.4, h'.5.trans h.5, h'.6.trans h.6,
    h'.7.trans h.7, h'.8.trans h.8, h'.9.trans h.9, h'.10.trans h.10⟩

inductive StatusStep : AssignmentStatus → AssignmentStatus → Prop
  | expired : StatusStep .leased .expired
  | submitted : StatusStep .leased .submitted
  | missed : StatusStep .leased .missed
  | aggregated : StatusStep .submitted .aggregated

def isClosed (status : AssignmentStatus) : Bool :=
  status == .expired || status == .missed || status == .aggregated

theorem closed_stays {status status' : AssignmentStatus} (hclosed : isClosed status = true)
    (h : Relation.ReflTransGen StatusStep status status') : status' = status := by
  induction h with
  | refl => rfl
  | tail _ hstep ih =>
    subst ih
    cases hstep with
    | expired => cases hclosed
    | submitted => cases hclosed
    | missed => cases hclosed
    | aggregated => cases hclosed

/-- An accepted submission of the client of an assignment, in its scope and
round, before the assignment runs out. -/
structure AcceptedInTime (s : StateStore) (a : StoreAction) (x : PersistedAssignmentLease) :
    Prop where
  accepted : ∃ t m jobId version now, a = .perform (.acceptTrainingAssignmentSubmission t m
      x.clientId jobId x.assignmentId x.roundIndex version) now ∧
    (acceptTrainingAssignmentSubmission s t m x.clientId jobId x.assignmentId x.roundIndex version
      now).value = .ok () ∧
    x.tenantId = normalizeTenant t ∧ x.modelId = normalizeModel m
  inTime : ∃ deadline, x.expiresAt = currentTimestamp deadline ∧ a.now < deadline

/-- What a step may do to an assignment. -/
structure LeaseStep (s : StateStore) (a : StoreAction) (x y : PersistedAssignmentLease) :
    Prop where
  terms : SameTerms x y
  status : y.status = x.status ∨ StatusStep x.status y.status
  submitted : x.status = .leased → y.status = .submitted → AcceptedInTime s a x

/-- An assignment expires at an instant of the clock. -/
def Dated (x : PersistedAssignmentLease) : Prop :=
  ∃ deadline, x.expiresAt = currentTimestamp deadline

/-- The assignments after a step: those before it, and new leases. -/
def AssignmentsStep (s : StateStore) (a : StoreAction) (after : List PersistedAssignmentLease) :
    Prop :=
  ∃ mid new, after = mid ++ new ∧ List.Forall₂ (LeaseStep s a) s.assignments mid ∧
    ∀ x ∈ new, x.status = .leased ∧ Dated x

/-- A step other than to `submitted`, or none. -/
structure QuietStep (x y : PersistedAssignmentLease) : Prop where
  terms : SameTerms x y
  status : y.status = x.status ∨ (StatusStep x.status y.status ∧ y.status ≠ .submitted)

theorem QuietStep.step {s : StateStore} {a : StoreAction} {x y : PersistedAssignmentLease}
    (h : QuietStep x y) : LeaseStep s a x y where
  terms := h.terms
  status := h.status.imp id (·.1)
  submitted hx hy := by
    rcases h.status with hsame | ⟨-, hnot⟩
    · rw [hy, hx] at hsame
      cases hsame
    · exact absurd hy hnot

theorem QuietStep.refl (x : PersistedAssignmentLease) : QuietStep x x := ⟨.refl x, .inl rfl⟩

theorem quietSteps_refl (l : List PersistedAssignmentLease) : List.Forall₂ QuietStep l l :=
  List.forall₂_same.mpr fun x _ => .refl x

theorem AssignmentsStep.of_quiet {s : StateStore} {a : StoreAction}
    {after : List PersistedAssignmentLease} (h : List.Forall₂ QuietStep s.assignments after) :
    AssignmentsStep s a after :=
  ⟨after, [], (List.append_nil _).symm, h.imp (fun _ _ hq => hq.step), by simp⟩

theorem AssignmentsStep.of_same {s : StateStore} {a : StoreAction}
    {after : List PersistedAssignmentLease} (h : after = s.assignments) :
    AssignmentsStep s a after := by
  rw [h]
  exact .of_quiet (quietSteps_refl _)

theorem lapse_quiet (now : String) (x : PersistedAssignmentLease) : QuietStep x (lapse now x) := by
  unfold lapse
  split
  · rename_i h
    simp only [hasLapsed, Bool.and_eq_true, beq_iff_eq] at h
    refine ⟨⟨rfl, rfl, rfl, rfl, rfl, rfl, rfl, rfl, rfl, rfl⟩, .inr ⟨?_, by simp⟩⟩
    rw [h.1.1]
    exact .expired
  · exact .refl x

theorem closeAssignment_quiet (id : String) (r : ℤ) (now : String) (x : PersistedAssignmentLease) :
    QuietStep x (closeAssignment id r now x) := by
  unfold closeAssignment
  split
  · refine ⟨⟨rfl, rfl, rfl, rfl, rfl, rfl, rfl, rfl, rfl, rfl⟩, ?_⟩
    dsimp only
    cases x.status with
    | leased => exact .inr ⟨.missed, by simp⟩
    | submitted => exact .inr ⟨.aggregated, by simp⟩
    | aggregated => exact .inl rfl
    | missed => exact .inl rfl
    | expired => exact .inl rfl
  · exact .refl x

theorem expire_quiet (s : StateStore) (now : String) :
    List.Forall₂ QuietStep s.assignments (expireAssignmentsLocked s now).assignments := by
  rw [(expireAssignmentsLocked_frame s now).2.1]
  exact forall₂_map _ (lapse_quiet now) _

theorem check_lapsed {s : StateStore} {t m c jobId id : String} {r v : ℤ} {now : String}
    (h : checkTrainingAssignmentSubmission s t m c jobId id r v now = .lapsed) :
    ∃ x, leaseNamed s id = some x ∧ x.status = .leased := by
  have hchecked := check_checked s t m c jobId id r v now
  rw [h] at hchecked
  cases hchecked with
  | lapsed ha hstatus _ => exact ⟨_, ha, hstatus⟩

theorem check_inTime {s : StateStore} {t m c jobId id : String} {r v : ℤ} {now : String}
    {x : PersistedAssignmentLease}
    (h : checkTrainingAssignmentSubmission s t m c jobId id r v now = .passed x) :
    ¬ (x.expiresAt ≠ "" ∧ x.expiresAt ≤ now) := by
  have hchecked := check_checked s t m c jobId id r v now
  rw [h] at hchecked
  cases hchecked with
  | passed _ _ _ _ _ _ htime => exact htime

theorem leased_before_sweep {now : String} {x : PersistedAssignmentLease}
    (h : (lapse now x).status = .leased) : lapse now x = x := by
  rcases lapse_cases now x with hsame | ⟨-, -, hexpired⟩
  · exact hsame
  · rw [h] at hexpired
    cases hexpired

theorem deadline_later {x : PersistedAssignmentLease} {now : ℕ} (hnow : now < clockEnd)
    (hdated : Dated x) (h : ¬ (x.expiresAt ≠ "" ∧ x.expiresAt ≤ currentTimestamp now)) :
    ∃ deadline, x.expiresAt = currentTimestamp deadline ∧ now < deadline := by
  obtain ⟨deadline, hdeadline⟩ := hdated
  refine ⟨deadline, hdeadline, ?_⟩
  by_contra hle
  apply h
  rw [hdeadline]
  exact ⟨currentTimestamp_ne_empty deadline, currentTimestamp_mono (by omega) hnow⟩

theorem sweep_update {R : PersistedAssignmentLease → PersistedAssignmentLease → Prop}
    {s : StateStore} {now id : String} {f : PersistedAssignmentLease → PersistedAssignmentLease}
    {x : PersistedAssignmentLease} (hquiet : ∀ y z, QuietStep y z → R y z)
    (hx : leaseNamed (expireAssignmentsLocked s now) id = some x) (hleased : x.status = .leased)
    (hR : x ∈ s.assignments → R x (f x)) :
    List.Forall₂ R s.assignments
      (updateAssignment (expireAssignmentsLocked s now) id f).assignments := by
  have hswept := (expireAssignmentsLocked_frame s now).2.1
  rw [leaseNamed, hswept] at hx
  rw [updateAssignment, hswept]
  have hmem : x ∈ s.assignments := by
    obtain ⟨y, hy, rfl⟩ := List.mem_map.mp (List.mem_of_find?_eq_some hx)
    rw [leased_before_sweep hleased]
    exact hy
  have hupdate : List.Forall₂ (fun y z => z = y ∨ (y = x ∧ z = f x)) (s.assignments.map (lapse now))
      (updateFirst (fun a => a.assignmentId == id) f (s.assignments.map (lapse now))) :=
    updateFirst_forall₂ (fun _ => .inl rfl) hx (.inr ⟨rfl, rfl⟩)
  have hlapse := forall₂_map (R := fun y z => z = lapse now y) (lapse now) (fun _ => rfl)
    s.assignments
  refine forall₂_trans ?_ hlapse hupdate
  rintro y z w rfl (rfl | ⟨hyx, rfl⟩)
  · exact hquiet _ _ (lapse_quiet now y)
  · have hyleased : (lapse now y).status = .leased := by rw [hyx, hleased]
    rw [leased_before_sweep hyleased] at hyx
    rw [hyx]
    exact hR hmem

theorem expireAtSubmission_quiet {x : PersistedAssignmentLease} (now : String)
    (h : x.status = .leased) : QuietStep x (expireAtSubmission now x) := by
  refine ⟨⟨rfl, rfl, rfl, rfl, rfl, rfl, rfl, rfl, rfl, rfl⟩, .inr ⟨?_, by simp [expireAtSubmission]⟩⟩
  rw [h]
  exact .expired

theorem validate_quiet (s : StateStore) (t m c jobId id : String) (r v : ℤ) (now : ℕ) :
    List.Forall₂ QuietStep s.assignments
      (validateTrainingAssignmentSubmission s t m c jobId id r v now).store.assignments := by
  have hexpire := expire_quiet s (currentTimestamp now)
  unfold validateTrainingAssignmentSubmission
  dsimp only
  split
  · exact hexpire
  · exact hexpire
  · rename_i hcheck
    obtain ⟨x, hx, hleased⟩ := check_lapsed hcheck
    exact sweep_update (fun _ _ hq => hq) hx hleased (fun _ => expireAtSubmission_quiet _ hleased)
  · exact hexpire

theorem accept_steps {s : StateStore} {now : ℕ} (hnow : now < clockEnd)
    (hdated : ∀ x ∈ s.assignments, Dated x) (t m c jobId id : String) (r v : ℤ) :
    List.Forall₂ (LeaseStep s (.perform (.acceptTrainingAssignmentSubmission t m c jobId id r v) now))
      s.assignments
      (acceptTrainingAssignmentSubmission s t m c jobId id r v now).store.assignments := by
  have hexpire := (expire_quiet s (currentTimestamp now)).imp (fun _ _ hq => QuietStep.step (s := s)
    (a := .perform (.acceptTrainingAssignmentSubmission t m c jobId id r v) now) hq)
  cases hcheck : checkTrainingAssignmentSubmission (expireAssignmentsLocked s (currentTimestamp now))
      t m c jobId id r v (currentTimestamp now) with
  | noActiveJob =>
    simp only [acceptTrainingAssignmentSubmission, hcheck]
    exact hexpire
  | refused errorMessage =>
    simp only [acceptTrainingAssignmentSubmission, hcheck]
    exact hexpire
  | lapsed =>
    simp only [acceptTrainingAssignmentSubmission, hcheck]
    obtain ⟨x, hx, hleased⟩ := check_lapsed hcheck
    exact sweep_update (fun _ _ hq => hq.step) hx hleased
      (fun _ => (expireAtSubmission_quiet _ hleased).step)
  | passed x =>
    have hvalue : (acceptTrainingAssignmentSubmission s t m c jobId id r v now).value = .ok () := by
      simp only [acceptTrainingAssignmentSubmission, hcheck]
    obtain ⟨job, -, -, -, hx, hfits, hleased⟩ := check_passed hcheck
    have htime := check_inTime hcheck
    have hid : x.assignmentId = id := by
      simpa using List.find?_some hx
    simp only [acceptTrainingAssignmentSubmission, hcheck]
    rw [(pushAuditEvent_frame _ _).2.1]
    apply sweep_update (fun _ _ hq => hq.step) hx hleased
    intro hmem
    refine ⟨⟨rfl, rfl, rfl, rfl, rfl, rfl, rfl, rfl, rfl, rfl⟩, .inr ?_, fun _ _ => ?_⟩
    · show StatusStep x.status .submitted
      rw [hleased]
      exact .submitted
    · constructor
      · refine ⟨t, m, jobId, v, now, ?_, ?_, hfits.tenantId, hfits.modelId⟩
        · rw [hfits.clientId, hfits.roundIndex, hid]
        · rw [hfits.clientId, hfits.roundIndex, hid]
          exact hvalue
      · exact deadline_later hnow (hdated x hmem) htime

theorem lease_assignments (s : StateStore) (t m c : String) (v minClients ttl : ℤ) (now : ℕ) :
    ∃ new, (leaseTrainingAssignment s t m c v minClients ttl now).store.assignments =
      s.assignments.map (lapse (currentTimestamp now)) ++ new ∧
      ∀ x ∈ new, x.status = .leased ∧ Dated x := by
  have hswept := (expireAssignmentsLocked_frame s (currentTimestamp now)).2.1
  unfold leaseTrainingAssignment
  dsimp only
  generalize expireAssignmentsLocked s (currentTimestamp now) = swept at *
  rw [← hswept]
  split
  · exact ⟨[], (List.append_nil _).symm, by simp⟩
  · rename_i job hjob
    split
    · exact ⟨[], (List.append_nil _).symm, by simp⟩
    · rcases grantLease_cases (updateActiveTrainingJob swept t m fun _ =>
          runningJob (currentTimestamp now) job) (runningJob (currentTimestamp now) job) t m c v
          minClients ttl now with h | ⟨event, h⟩
      · rw [h]
        exact ⟨[], (List.append_nil _).symm, by simp⟩
      · rw [h, (pushAuditEvent_frame _ _).2.1]
        refine ⟨_, rfl, ?_⟩
        intro x hx
        rw [List.mem_singleton.mp hx]
        exact ⟨rfl, _, rfl⟩

theorem advance_quiet (s : StateStore) (t m : String) (r v : ℤ) (now : ℕ) :
    List.Forall₂ QuietStep s.assignments (advanceTrainingJobRound s t m r v now).store.assignments := by
  cases hjob : getActiveTrainingJob s t m with
  | none =>
    rw [advance_none hjob]
    exact quietSteps_refl _
  | some job =>
    rw [(advance_some hjob r v now).2]
    exact forall₂_map _ (closeAssignment_quiet _ _ _) _

theorem perform_quiet (s : StateStore) (now : ℕ) (op : Operation)
    (hlease : ∀ t m c v minClients ttl, op ≠ .leaseTrainingAssignment t m c v minClients ttl)
    (haccept : ∀ t m c jobId id r v,
      op ≠ .acceptTrainingAssignmentSubmission t m c jobId id r v) :
    List.Forall₂ QuietStep s.assignments (perform s now op).store.assignments := by
  have hsame : ∀ {s' : StateStore}, jobRecords s' = jobRecords s →
      List.Forall₂ QuietStep s.assignments s'.assignments := by
    intro s' h
    rw [(Prod.mk.inj h).2]
    exact quietSteps_refl _
  cases op with
  | recordClientRegistration record => exact hsame (recordClientRegistration_frame _ _ now).1
  | updateClientLastRound t m c round => exact hsame (updateClientLastRound_frame _ _ _ _ _).1
  | recordWeightSubmission t m c round => exact hsame (recordWeightSubmission_frame _ _ _ _ _ _).1
  | recordAggregatedModel t m round path strategy keyVersion clientCount weightDimension =>
    exact hsame (recordAggregatedModel_frame _ _ _ _ _ _ _ _ _ _).1
  | rollbackModel t m targetVersion => exact hsame (rollbackModel_frame _ _ _ _ _).1
  | updateActiveKeyVersion version => exact hsame (updateActiveKeyVersion_frame _ _ _).1
  | recordAuditEvent event => exact hsame (recordAuditEvent_frame _ _ _).1
  | upsertDataset record => exact hsame (upsertDataset_frame _ _ _).1
  | createTrainingJob record =>
    have hleases := (create_jobs s record now).2
    simp only [perform, written, hleases]
    exact quietSteps_refl _
  | leaseTrainingAssignment t m c version minClients ttl => exact absurd rfl (hlease _ _ _ _ _ _)
  | validateTrainingAssignmentSubmission t m c jobId id round version =>
    exact validate_quiet s t m c jobId id round version now
  | acceptTrainingAssignmentSubmission t m c jobId id round version =>
    exact absurd rfl (haccept _ _ _ _ _ _ _)
  | advanceTrainingJobRound t m round version => exact advance_quiet s t m round version now
  | upsertWorker record => exact hsame (upsertWorker_frame _ _ _).1
  | leaseWorkerTask worker assignment job dataset =>
    exact hsame (leaseWorkerTask_frame _ _ _ _ _ _).1
  | updateWorkerTaskStatus workerId taskId status detail progressPercent =>
    exact hsame (updateWorkerTaskStatus_frame _ _ _ _ _ _ _).1
  | recordWorkerHeartbeat workerId activeTaskId detail =>
    exact hsame (recordWorkerHeartbeat_frame _ _ _ _ _).1

theorem perform_assignments {s : StateStore} {now : ℕ} (hnow : now < clockEnd)
    (hdated : ∀ x ∈ s.assignments, Dated x) (op : Operation) :
    AssignmentsStep s (.perform op now) (perform s now op).store.assignments := by
  by_cases hlease : ∃ t m c v minClients ttl, op = .leaseTrainingAssignment t m c v minClients ttl
  · obtain ⟨t, m, c, v, minClients, ttl, rfl⟩ := hlease
    obtain ⟨new, hnew, hleased⟩ := lease_assignments s t m c v minClients ttl now
    refine ⟨_, new, hnew, ?_, hleased⟩
    exact forall₂_map _ (fun x => (lapse_quiet _ x).step) _
  · by_cases haccept : ∃ t m c jobId id r v,
        op = .acceptTrainingAssignmentSubmission t m c jobId id r v
    · obtain ⟨t, m, c, jobId, id, r, v, rfl⟩ := haccept
      exact ⟨_, [], (List.append_nil _).symm, accept_steps hnow hdated t m c jobId id r v, by simp⟩
    · apply AssignmentsStep.of_quiet
      apply perform_quiet
      · intro t m c v minClients ttl h
        exact hlease ⟨t, m, c, v, minClients, ttl, h⟩
      · intro t m c jobId id r v h
        exact haccept ⟨t, m, c, jobId, id, r, v, h⟩

theorem reload_quiet {clock now : ℕ} (hle : clock ≤ now) (hnow : now < clockEnd)
    {d x : PersistedAssignmentLease} (h : Lapsed clock d x) :
    QuietStep x (lapse (currentTimestamp now) d) := by
  rcases h with rfl | ⟨t, ht, rfl⟩
  · exact lapse_quiet _ x
  · rcases lapse_cases (currentTimestamp t) d with hsame | ⟨hleased, hpast, hexpired⟩
    · rw [hsame]
      exact lapse_quiet _ d
    · have hmono := currentTimestamp_mono (ht.trans hle) hnow
      have hterms : SameTerms (lapse (currentTimestamp t) d) (lapse (currentTimestamp now) d) :=
        (lapse_quiet _ d).terms.symm.trans (lapse_quiet _ d).terms
      refine ⟨hterms, .inl ?_⟩
      rw [hexpired]
      have hlapsed : hasLapsed (currentTimestamp t) d = true := by
        by_contra hnot
        rw [lapse, if_neg hnot, hleased] at hexpired
        cases hexpired
      simp only [hasLapsed, Bool.and_eq_true, decide_eq_true_eq] at hlapsed
      have hagain : hasLapsed (currentTimestamp now) d = true := by
        simp only [hasLapsed, Bool.and_eq_true, decide_eq_true_eq]
        exact ⟨hlapsed.1, hlapsed.2.trans hmono⟩
      rw [lapse, if_pos hagain]

theorem step_assignments {p p' : StoreProcess} {a : StoreAction} (hb : Backed p) (hbehind : Behind p)
    (hdated : ∀ x ∈ p.store.assignments, Dated x) (ha : Timely p a) (hs : step p a = some p') :
    AssignmentsStep p.store a p'.store.assignments := by
  rcases step_cases hs with ⟨op, now, rfl, hstore, -⟩ | ⟨now, rfl, hstore, -⟩
  · rw [hstore]
    exact perform_assignments ha.2 hdated op
  · rw [hstore, (load_fields hb.disk now).2.2.2.2.2.2]
    apply AssignmentsStep.of_quiet
    apply List.forall₂_map_right_iff.mpr
    exact (hbehind.leases.imp (fun _ _ h => reload_quiet ha.1 ha.2 h)).flip

theorem AssignmentsStep.dated {s : StateStore} {a : StoreAction}
    {after : List PersistedAssignmentLease} (h : AssignmentsStep s a after)
    (hdated : ∀ x ∈ s.assignments, Dated x) : ∀ x ∈ after, Dated x := by
  obtain ⟨mid, new, rfl, hmid, hnew⟩ := h
  intro y hy
  rcases List.mem_append.mp hy with hy | hy
  · obtain ⟨x, hx, hstep⟩ := forall₂_of_mem hmid hy
    obtain ⟨deadline, hdeadline⟩ := hdated x hx
    exact ⟨deadline, hstep.terms.expiresAt.trans hdeadline⟩
  · exact (hnew y hy).2

structure RunFacts (p : StoreProcess) : Prop where
  backed : Backed p
  behind : Behind p
  dated : ∀ x ∈ p.store.assignments, Dated x

theorem run_facts {n : ℕ} {p : StoreProcess} (h : Reaches step Timely (initial n) p) :
    RunFacts p := by
  apply h.invariant
  · exact ⟨initial_backed n, initial_behind n, by simp [initial, emptyStore]⟩
  · rintro p a p' ⟨hb, hbehind, hdated⟩ ha hs
    exact ⟨step_backed hb hs, step_behind hbehind ha hs,
      (step_assignments hb hbehind hdated ha hs).dated hdated⟩

/-- An assignment later in the run: the same terms, a status which follows, and
the same one if it was closed. -/
structure LeaseLater (x y : PersistedAssignmentLease) : Prop where
  terms : SameTerms x y
  status : Relation.ReflTransGen StatusStep x.status y.status
  closed : isClosed x.status = true → y.status = x.status

theorem LeaseLater.of_path {x y : PersistedAssignmentLease} (hterms : SameTerms x y)
    (hstatus : Relation.ReflTransGen StatusStep x.status y.status) : LeaseLater x y :=
  ⟨hterms, hstatus, fun hclosed => closed_stays hclosed hstatus⟩

theorem LeaseLater.refl (x : PersistedAssignmentLease) : LeaseLater x x := .of_path (.refl x) .refl

theorem LeaseLater.trans {x y z : PersistedAssignmentLease} (h : LeaseLater x y)
    (h' : LeaseLater y z) : LeaseLater x z :=
  .of_path (h.terms.trans h'.terms) (h.status.trans h'.status)

theorem LeaseStep.later {s : StateStore} {a : StoreAction} {x y : PersistedAssignmentLease}
    (h : LeaseStep s a x y) : LeaseLater x y := by
  apply LeaseLater.of_path h.terms
  rcases h.status with hsame | hstep
  · rw [hsame]
  · exact .single hstep

end PqFl.LeaseLifecycle
