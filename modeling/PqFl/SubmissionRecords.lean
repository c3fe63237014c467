import PqFl.ServerStore

/-!
# What a submission writes besides its weights

The count of submissions, the audit events about them, and the last active
round of a client, in the store and in the registry. Two methods of the store
and one of the registry write them; the others only add new clients and let the
audit log lose its oldest events.
-/

set_option autoImplicit false

namespace PqFl.SubmissionRecords
open PqFl.Identifiers PqFl.Timestamps PqFl.StoreRecords PqFl.StateStore PqFl.ClientRegistry
open PqFl.ListUpdate PqFl.StoreRuns

def isWeightEvent (e : PersistedAuditEvent) : Bool := e.action == "weight_submission"

def weightEvents (s : StateStore) : List (String × String × String × String) :=
  (s.auditEvents.filter isWeightEvent).map (fun e => (e.tenantId, e.modelId, e.clientId, e.detail))

def lastRounds (s : StateStore) : List ((String × String × String) × ℤ) :=
  s.clients.map (fun c => ((c.tenantId, c.modelId, c.clientId), c.lastActiveRound))

/-- Nothing of this is written: old events may go, and new clients have no round. -/
structure Calm (x y : StateStore) : Prop where
  total : y.totalSubmissions = x.totalSubmissions
  events : weightEvents y <:+ weightEvents x
  rounds : ∃ added, lastRounds y = lastRounds x ++ added ∧ ∀ entry ∈ added, entry.2 = -1

theorem Calm.trans {x y z : StateStore} (h : Calm x y) (h' : Calm y z) : Calm x z := by
  obtain ⟨added, hadded, hnew⟩ := h.rounds
  obtain ⟨added', hadded', hnew'⟩ := h'.rounds
  refine ⟨h'.total.trans h.total, h'.events.trans h.events, added ++ added', ?_, ?_⟩
  · rw [hadded', hadded, List.append_assoc]
  · intro entry hentry
    rcases List.mem_append.mp hentry with hold | hlate
    · exact hnew entry hold
    · exact hnew' entry hlate

def submissionFields (s : StateStore) :
    ℤ × List PersistedAuditEvent × List PersistedClientRecord :=
  (s.totalSubmissions, s.auditEvents, s.clients)

theorem calm_of_fields {x y : StateStore} (h : submissionFields y = submissionFields x) :
    Calm x y := by
  obtain ⟨htotal, hrest⟩ := Prod.mk.inj h
  obtain ⟨hevents, hclients⟩ := Prod.mk.inj hrest
  refine ⟨htotal, ?_, [], ?_, by simp⟩
  · rw [weightEvents, weightEvents, hevents]
  · rw [lastRounds, lastRounds, hclients, List.append_nil]

theorem calm_trim (s : StateStore) : Calm s (trimAuditEventsLocked s) := by
  unfold trimAuditEventsLocked
  split
  · refine ⟨rfl, ?_, [], (List.append_nil _).symm, by simp⟩
    exact ((List.drop_suffix _ _).filter _).map _
  · exact calm_of_fields rfl

theorem calm_append {x y : StateStore} {events : List PersistedAuditEvent}
    (h : submissionFields y = (x.totalSubmissions, x.auditEvents ++ events, x.clients))
    (hother : ∀ e ∈ events, isWeightEvent e = false) : Calm x y := by
  obtain ⟨htotal, hrest⟩ := Prod.mk.inj h
  obtain ⟨hevents, hclients⟩ := Prod.mk.inj hrest
  refine ⟨htotal, ?_, [], ?_, by simp⟩
  · have hnone : events.filter isWeightEvent = [] := by
      rw [List.filter_eq_nil_iff]
      intro e he
      rw [hother e he]
      decide
    rw [weightEvents, weightEvents, hevents, List.filter_append, hnone, List.append_nil]
  · rw [lastRounds, lastRounds, hclients, List.append_nil]

theorem calm_push {x y : StateStore} (h : submissionFields y = submissionFields x)
    {event : PersistedAuditEvent} (hother : isWeightEvent event = false) :
    Calm x (pushAuditEvent y event) := by
  have hevents : Calm y { y with auditEvents := y.auditEvents ++ [event] } :=
    calm_append rfl (by simpa using hother)
  exact (calm_of_fields h).trans (hevents.trans (calm_trim _))

theorem calm_expire (s : StateStore) (now : String) : Calm s (expireAssignmentsLocked s now) := by
  unfold expireAssignmentsLocked
  dsimp only
  have hother : ∀ e ∈ (s.assignments.filter (hasLapsed now)).map (fun a =>
      (⟨now, "assignment_expired", a.tenantId, a.modelId, a.clientId,
        "Assignment " ++ a.assignmentId ++ " expired"⟩ : PersistedAuditEvent)),
      isWeightEvent e = false := by
    intro e he
    obtain ⟨a, -, rfl⟩ := List.mem_map.mp he
    simp [isWeightEvent]
  split
  · exact calm_append rfl hother
  · exact (calm_append rfl hother).trans (calm_trim _)

def Calming : Operation → Prop
  | .updateClientLastRound _ _ _ _ => False
  | .recordWeightSubmission _ _ _ _ => False
  | .recordClientRegistration record => record.lastActiveRound = -1
  | .recordAuditEvent event => isWeightEvent event = false
  | _ => True

theorem registration_calm (s : StateStore) {record : PersistedClientRecord}
    (h : record.lastActiveRound = -1) (now : ℕ) :
    Calm s (recordClientRegistration s record now).store := by
  unfold recordClientRegistration
  dsimp only
  split
  · refine ⟨rfl, List.suffix_refl _, [], ?_, by simp⟩
    rw [List.append_nil]
    refine map_updateFirst ?_ s.clients
    intro c _
    rfl
  · refine ⟨rfl, List.suffix_refl _, _, List.map_append, ?_⟩
    intro entry hentry
    rw [List.map_singleton, List.mem_singleton] at hentry
    rw [hentry]
    exact h

theorem lease_calm (s : StateStore) (t m c : String) (version minClients ttl : ℤ) (now : ℕ) :
    Calm s (leaseTrainingAssignment s t m c version minClients ttl now).store := by
  have hexpired := calm_expire s (currentTimestamp now)
  unfold leaseTrainingAssignment
  dsimp only
  split
  · exact hexpired
  split
  · exact hexpired.trans (calm_of_fields rfl)
  · refine hexpired.trans ?_
    unfold grantLease
    dsimp only
    split
    · exact calm_of_fields rfl
    split
    · exact calm_of_fields rfl
    · exact calm_push (by rfl) (by simp [isWeightEvent])

theorem perform_calm (s : StateStore) (now : ℕ) {op : Operation} (h : Calming op) :
    Calm s (perform s now op).store := by
  cases op with
  | recordClientRegistration record => exact registration_calm s h now
  | updateClientLastRound t m c round => cases h
  | recordWeightSubmission t m c round => cases h
  | recordAggregatedModel t m round path strategy keyVersion clientCount weightDimension =>
    exact calm_push (by rfl) (by simp [isWeightEvent])
  | rollbackModel t m version =>
    simp only [perform, written, rollbackModel]
    split
    · exact calm_of_fields rfl
    · exact calm_push (by rfl) (by simp [isWeightEvent])
  | updateActiveKeyVersion version =>
    simp only [perform, written, updateActiveKeyVersion]
    split
    · exact calm_of_fields rfl
    · exact calm_push (by rfl) (by simp [isWeightEvent])
  | recordAuditEvent event => exact calm_push rfl h
  | upsertDataset record => exact calm_push (by rfl) (by simp [isWeightEvent])
  | createTrainingJob record => exact calm_push (by rfl) (by simp [isWeightEvent])
  | leaseTrainingAssignment t m c version minClients ttl =>
    exact lease_calm s t m c version minClients ttl now
  | validateTrainingAssignmentSubmission t m c jobId id round version =>
    have hexpired := calm_expire s (currentTimestamp now)
    simp only [perform, written, validateTrainingAssignmentSubmission]
    split
    · exact hexpired
    · exact hexpired
    · exact hexpired.trans (calm_of_fields rfl)
    · exact hexpired
  | acceptTrainingAssignmentSubmission t m c jobId id round version =>
    have hexpired := calm_expire s (currentTimestamp now)
    simp only [perform, written, acceptTrainingAssignmentSubmission]
    split
    · exact hexpired
    · exact hexpired
    · exact hexpired.trans (calm_of_fields rfl)
    · exact hexpired.trans (calm_push (by rfl) (by simp [isWeightEvent]))
  | advanceTrainingJobRound t m round version =>
    simp only [perform, written, advanceTrainingJobRound]
    split
    · exact calm_of_fields rfl
    · exact calm_push (by rfl) (by simp [isWeightEvent])
  | upsertWorker record => exact calm_push (by rfl) (by simp [isWeightEvent])
  | leaseWorkerTask worker assignment job dataset =>
    simp only [perform, written, leaseWorkerTask]
    split
    · exact calm_of_fields rfl
    · exact calm_push (by rfl) (by simp [isWeightEvent])
  | updateWorkerTaskStatus workerId taskId status detail progressPercent =>
    simp only [perform, written, updateWorkerTaskStatus]
    split
    · exact calm_of_fields rfl
    split
    · exact calm_of_fields rfl
    · exact calm_push (by rfl) (by simp [isWeightEvent])
  | recordWorkerHeartbeat workerId activeTaskId detail =>
    simp only [perform, written, recordWorkerHeartbeat]
    split
    · exact calm_of_fields rfl
    · dsimp only
      split
      · exact calm_of_fields rfl
      · exact calm_push (by rfl) (by simp [isWeightEvent])

theorem load_calm {image : StateStore} (h : Tidy image)
    (hevents : ∀ entry ∈ weightEvents image, InNormalScope entry.1 entry.2.1) (now : ℕ) :
    Calm image (load image now).store := by
  have hnormal : Calm image (normalizedRecords image) := by
    refine ⟨rfl, ?_, [], ?_, by simp⟩
    · have hsame : weightEvents (normalizedRecords image) = weightEvents image := by
        unfold weightEvents normalizedRecords
        dsimp only
        rw [List.filter_map, List.map_map]
        apply List.map_congr_left
        intro e he
        obtain ⟨ht, hm⟩ := hevents _ (List.mem_map_of_mem he)
        simp only [Function.comp_apply, ht, hm]
      rw [hsame]
    · rw [List.append_nil]
      unfold lastRounds normalizedRecords
      dsimp only
      rw [List.map_map]
      apply List.map_congr_left
      intro c hc
      obtain ⟨ht, hm⟩ := h.clients c hc
      simp only [Function.comp_apply, ht, hm]
  exact hnormal.trans ((calm_expire _ _).trans (calm_trim _))

/-- A submission which is entered in the records. -/
structure Credit where
  serial : ℕ
  tenantId : String
  modelId : String
  clientId : String
  round : ℤ
  deriving DecidableEq

def Credit.entry (a : Credit) : String × String × String × String :=
  (a.tenantId, a.modelId, a.clientId, "Accepted submission for round " ++ toString a.round)

def Credit.client (a : Credit) : String × String × String := (a.tenantId, a.modelId, a.clientId)

def Credit.key (a : Credit) : String := clientKey a.tenantId a.modelId a.clientId

/-- The store counts these submissions, its events are the latest of them, and
the rounds of its clients are those of marked ones. -/
structure Booked (counted marked : List Credit) (s : StateStore) : Prop where
  total : s.totalSubmissions = counted.length
  events : weightEvents s <:+ counted.map Credit.entry
  rounds : ∀ entry ∈ lastRounds s, entry.2 = -1 ∨
    ∃ a ∈ marked, a.client = entry.1 ∧ a.round = entry.2

theorem booked_empty (n : ℕ) : Booked [] [] (emptyStore n) :=
  ⟨rfl, List.nil_suffix, by simp [lastRounds, emptyStore]⟩

variable {counted marked marked' : List Credit} {x y : StateStore}

theorem Booked.calm (h : Booked counted marked x) (hc : Calm x y) : Booked counted marked y := by
  obtain ⟨added, hadded, hnew⟩ := hc.rounds
  refine ⟨hc.total.trans h.total, hc.events.trans h.events, ?_⟩
  intro entry hentry
  rw [hadded] at hentry
  rcases List.mem_append.mp hentry with hold | hlate
  · exact h.rounds entry hold
  · exact .inl (hnew entry hlate)

theorem Booked.mono (h : Booked counted marked x) (hsub : ∀ a ∈ marked, a ∈ marked') :
    Booked counted marked' x := by
  refine ⟨h.total, h.events, ?_⟩
  intro entry hentry
  rcases h.rounds entry hentry with hfresh | ⟨a, ha, hcredit⟩
  · exact .inl hfresh
  · exact .inr ⟨a, hsub a ha, hcredit⟩

theorem Booked.record (h : Booked counted marked x) {a : Credit}
    (ha : InNormalScope a.tenantId a.modelId) (now : ℕ) : Booked (counted ++ [a]) marked
      (recordWeightSubmission x a.tenantId a.modelId a.clientId a.round now).store := by
  let pushed : StateStore := { x with
    totalSubmissions := x.totalSubmissions + 1
    auditEvents := x.auditEvents ++ [⟨currentTimestamp now, "weight_submission",
      normalizeTenant a.tenantId, normalizeModel a.modelId, a.clientId,
      "Accepted submission for round " ++ toString a.round⟩] }
  have hpushed : Booked (counted ++ [a]) marked pushed := by
    refine ⟨?_, ?_, h.rounds⟩
    · rw [List.length_append, List.length_singleton, Nat.cast_add, Nat.cast_one, ← h.total]
    · have hevents : weightEvents pushed = weightEvents x ++ [a.entry] := by
        simp [weightEvents, pushed, isWeightEvent, Credit.entry, ha.1, ha.2]
      obtain ⟨gone, hgone⟩ := h.events
      refine ⟨gone, ?_⟩
      rw [hevents, ← List.append_assoc, hgone, List.map_append, List.map_singleton]
  exact hpushed.calm (calm_trim pushed)

theorem Booked.update (h : Booked counted marked x) {a : Credit}
    (ha : InNormalScope a.tenantId a.modelId) : Booked counted (marked ++ [a])
      (updateClientLastRound x a.tenantId a.modelId a.clientId a.round).store := by
  refine ⟨h.total, h.events, ?_⟩
  intro entry hentry
  obtain ⟨c', hc', rfl⟩ := List.mem_map.mp hentry
  obtain ⟨c, hc, htouched⟩ := forall₂_of_mem (updateFirst_touched _ _ x.clients) hc'
  have hmono : Booked counted (marked ++ [a]) x := h.mono (fun b hb => List.mem_append_left _ hb)
  have hold := hmono.rounds _ (List.mem_map_of_mem hc)
  rcases htouched with rfl | ⟨hknown, rfl⟩
  · exact hold
  · by_cases hround : a.round ≤ c.lastActiveRound
    · simp only [max_eq_left hround]
      exact hold
    · simp only [max_eq_right (not_le.mp hround).le]
      simp only [isClient, ha.1, ha.2, Bool.and_eq_true, beq_iff_eq] at hknown
      obtain ⟨⟨ht, hm⟩, hid⟩ := hknown
      refine .inr ⟨a, List.mem_append_right _ (List.mem_singleton_self a), ?_, rfl⟩
      rw [Credit.client, ← ht, ← hm, ← hid]

theorem Booked.load (h : Booked counted marked x) (ht : Tidy x)
    (hnormal : ∀ a ∈ counted, InNormalScope a.tenantId a.modelId) (now : ℕ) :
    Booked counted marked (load x now).store := by
  apply h.calm
  apply load_calm ht
  intro entry hentry
  obtain ⟨a, ha, rfl⟩ := List.mem_map.mp (h.events.subset hentry)
  exact hnormal a ha

def registeredRound (g : Registry) (key : String) : Option ℤ :=
  (g.lookup key).map (·.lastActiveRound)

def RoundsKept (g g' : Registry) : Prop := ∀ key, registeredRound g' key = registeredRound g key ∨
  (registeredRound g key = none ∧ registeredRound g' key = some (-1))

def Marked (marked : List Credit) (g : Registry) : Prop :=
  ∀ key r, registeredRound g key = some r → r = -1 ∨ ∃ a ∈ marked, a.key = key ∧ a.round = r

theorem roundsKept_refl (g : Registry) : RoundsKept g g := fun _ => .inl rfl

theorem register_roundsKept (g : Registry) {info : ClientInfo} (h : info.lastActiveRound = -1) :
    RoundsKept g (register g info).2 := by
  intro key
  unfold registeredRound
  rw [register_lookup]
  split
  · rename_i hnew
    right
    rw [hnew.2, Option.map_some, h]
    exact ⟨rfl, rfl⟩
  · exact .inl rfl

theorem bind_roundsKept (g : Registry) (t m c p : String) :
    RoundsKept g (bindPeerIdentityIfMissing g t m c p).2 := by
  intro key
  left
  unfold bindPeerIdentityIfMissing
  dsimp only
  cases hlookup : g.lookup (clientKey t m c) with
  | none => rfl
  | some info =>
    dsimp only
    split
    · by_cases hkey : key = clientKey t m c
      · subst hkey
        simp [registeredRound, hlookup]
      · simp [registeredRound, AList.lookup_insert_ne hkey]
    · rfl

theorem Marked.kept {g g' : Registry} (h : Marked marked g) (hkept : RoundsKept g g') :
    Marked marked g' := by
  intro key r hr
  rcases hkept key with hsame | ⟨-, hfresh⟩
  · rw [hsame] at hr
    exact h key r hr
  · rw [hfresh, Option.some.injEq] at hr
    exact .inl hr.symm

theorem Marked.mono {g : Registry} (h : Marked marked g) (hsub : ∀ a ∈ marked, a ∈ marked') :
    Marked marked' g := by
  intro key r hr
  rcases h key r hr with hfresh | ⟨a, ha, hcredit⟩
  · exact .inl hfresh
  · exact .inr ⟨a, hsub a ha, hcredit⟩

theorem Marked.update {g : Registry} (h : Marked marked g) (a : Credit) : Marked (marked ++ [a])
    (updateLastActiveRound g a.tenantId a.modelId a.clientId a.round) := by
  have hold : Marked (marked ++ [a]) g := h.mono (fun b hb => List.mem_append_left _ hb)
  unfold updateLastActiveRound
  dsimp only
  cases hlookup : g.lookup (clientKey a.tenantId a.modelId a.clientId) with
  | none => exact hold
  | some info =>
    intro key r hr
    by_cases hkey : key = clientKey a.tenantId a.modelId a.clientId
    · subst hkey
      rw [registeredRound, AList.lookup_insert, Option.map_some, Option.some.injEq] at hr
      by_cases hround : a.round ≤ info.lastActiveRound
      · rw [max_eq_left hround] at hr
        apply hold
        rw [registeredRound, hlookup, Option.map_some, hr]
      · rw [max_eq_right (not_le.mp hround).le] at hr
        exact .inr ⟨a, List.mem_append_right _ (List.mem_singleton_self a), rfl, hr⟩
    · rw [registeredRound, AList.lookup_insert_ne hkey] at hr
      exact hold key r hr

theorem mem_of_loadRegistry {clients : List PersistedClientRecord} {key : String}
    {info : ClientInfo} (h : (Process.loadRegistry clients).lookup key = some info) :
    ∃ c ∈ clients, info = Process.registryEntry c ∧ key = clientKey c.tenantId c.modelId c.clientId := by
  have hfold : ∀ (cs : List PersistedClientRecord) (g : Registry),
      (cs.foldl (fun g c => (register g (Process.registryEntry c)).2) g).lookup key = some info →
      g.lookup key = some info ∨ ∃ c ∈ cs, info = Process.registryEntry c ∧
        key = clientKey c.tenantId c.modelId c.clientId := by
    intro cs
    induction cs with
    | nil => exact fun _ h => .inl h
    | cons c cs ih =>
      intro g hg
      rcases ih _ hg with hone | ⟨c', hc', hinfo⟩
      · rw [register_lookup] at hone
        split at hone
        · rename_i hnew
          exact .inr ⟨c, List.mem_cons_self, (Option.some.inj hone).symm, hnew.1⟩
        · exact .inl hone
      · exact .inr ⟨c', List.mem_cons_of_mem _ hc', hinfo⟩
  rcases hfold clients ∅ h with hnone | hmem
  · rw [AList.lookup_empty] at hnone
    cases hnone
  · exact hmem

theorem Booked.registry (h : Booked counted marked x) :
    Marked marked (Process.loadRegistry x.clients) := by
  intro key r hr
  obtain ⟨info, hinfo, rfl⟩ := Option.map_eq_some_iff.mp hr
  obtain ⟨c, hc, rfl, rfl⟩ := mem_of_loadRegistry hinfo
  rcases h.rounds _ (List.mem_map_of_mem hc) with hfresh | ⟨a, ha, hclient, hround⟩
  · exact .inl hfresh
  · refine .inr ⟨a, ha, ?_, hround⟩
    obtain ⟨ht, hrest⟩ := Prod.mk.inj hclient
    obtain ⟨hm, hid⟩ := Prod.mk.inj hrest
    rw [Credit.key, ht, hm, hid]

end PqFl.SubmissionRecords
