import PqFl.AcceptedSubmissions
import PqFl.BindingSteps
import PqFl.LeaseLifecycle
import PqFl.SubmissionRecords

/-!
# Submission accounting

A submission is counted, and its client marked as active in its round, before
its weights reach the buffer. The buffer and the lease may still refuse it; then
what was written stays. As long as neither does, and the process is not stopped
in between, the records are those of the accepted answers.
-/

set_option autoImplicit false

namespace PqFl.SubmissionAccounts
open PqFl.Identifiers PqFl.StoreRecords PqFl.StateStore PqFl.ClientRegistry PqFl.Crypto
open PqFl.Aggregation PqFl.Buffer PqFl.Services PqFl.Process PqFl.StoreRuns PqFl.ServerStore
open PqFl.Runs PqFl.Floats PqFl.Configuration PqFl.JobLedger PqFl.JobSteps PqFl.JobRuns
open PqFl.Timestamps PqFl.LeaseLifecycle PqFl.SubmissionTracking
open PqFl.PendingSubmissions PqFl.SubmissionRecords PqFl.CertificateBinding
open PqFl.AcceptedSubmissions (goodLease acceptance_of_goodLease)

variable {F : Type} {d : Deployment F} {s s' : Server F} {a : Action F}

def reached (k : ℕ) : SubmitPoint F → Bool
  | .respond response _ => response.accepted
  | p => decide (k ≤ stage p)

theorem reached_of_stage (k : ℕ) {p : SubmitPoint F} (h : stage p ≠ 14) :
    reached k p = decide (k ≤ stage p) := by
  cases p with
  | respond response countClients => exact absurd rfl h
  | _ => rfl

def credit (c : Submitting F) : Credit :=
  ⟨c.serial, normalizeTenant c.q.tenantId, normalizeModel c.q.modelId, c.q.clientId, c.q.roundIndex⟩

def creditOf : Event F → Option Credit
  | .answered n t m x r response => if response.accepted then some ⟨n, t, m, x, r⟩ else none
  | _ => none

def credits (s : Server F) : List Credit := s.events.filterMap creditOf

def creditFrom (k : ℕ) (s : Server F) : List Credit :=
  (((submitting s).filter (fun c => reached k c.point)).map credit).toList

def account (k : ℕ) (s : Server F) : List Credit := credits s ++ creditFrom k s

/-- The records of the submissions are those of the accepted answers, and of the
request in progress as far as it has come. -/
structure Accounted (s : Server F) : Prop where
  store : Booked (account 8 s) (account 7 s) s.world.store
  disk : Booked (account 8 s) (account 7 s) s.world.disk
  registry : Marked (account 6 s) s.world.registry
  normal : ∀ c ∈ credits s, InNormalScope c.tenantId c.modelId

/-- A step which is of no submission in progress, and no restart. -/
structure Bystander (d : Deployment F) (s : Server F) (a : Action F) (s' : Server F) : Prop where
  running : ∀ start, a ≠ .restart start
  operation : ∀ op now, storeOperation d s a = some (op, now) → Calming op
  registry : RoundsKept s.world.registry s'.world.registry
  credits : credits s' = credits s
  progress : ∀ k, 0 < k → creditFrom k s' = creditFrom k s

theorem creditFrom_none (h : submitting s = none) (k : ℕ) : creditFrom k s = [] := by
  rw [creditFrom, h]
  rfl

theorem creditFrom_some {c : Submitting F} (h : submitting s = some c) (k : ℕ) :
    creditFrom k s = if reached k c.point then [credit c] else [] := by
  rw [creditFrom, h, Option.filter_some]
  split <;> rfl

theorem operation_calming (hfresh : ∀ info, clientInRegistration s = some info →
      info.lastActiveRound = -1) (hother : ∀ o c, a = .proceed o → submitting s ≠ some c)
    {op : Operation} {now : ℕ} (h : storeOperation d s a = some (op, now)) : Calming op := by
  cases a with
  | proceed o =>
    obtain ⟨op', hop, hpair⟩ := Option.map_eq_some_iff.mp h
    cases hpair
    obtain ⟨call, hcall, hoperation⟩ := Option.bind_eq_some_iff.mp hop
    cases call with
    | registerClient info p =>
      cases p with
      | latestModel accepted => cases hoperation
      | modelVersion accepted round => cases hoperation
      | record response =>
        cases hoperation
        exact hfresh info (by simp [clientInRegistration, hcall])
      | audit response =>
        cases hoperation
        simp only [Calming, isWeightEvent]
        split <;> simp
    | trainingConfig q p =>
      cases p <;> cases hoperation
      trivial
    | submitWeights q peer n p => exact absurd (by simp [submitting, hcall]) (hother o ⟨q, peer, n, p⟩ rfl)
  | call i now' =>
    obtain ⟨op', hop, hpair⟩ := Option.map_eq_some_iff.mp h
    cases hpair
    obtain ⟨call, hcall, hoperation⟩ := Option.bind_eq_some_iff.mp hop
    cases call with
    | registerWorker q peer p =>
      cases p <;> cases hoperation
      exact rfl
    | leaseTrainingTask q worker p => cases p <;> cases hoperation <;> trivial
    | rollbackModel target p => cases p <;> cases hoperation
    | rotateAtRestKey keyVersion =>
      cases hoperation
      trivial
  | registerWorker q peer now' =>
    simp only [storeOperation] at h
    split at h
    · cases h
    · cases h
      trivial
  | reportTaskStatus q peer now' =>
    simp only [storeOperation] at h
    split at h
    · cases h
    · cases h
      trivial
  | heartbeat q peer now' =>
    simp only [storeOperation] at h
    split at h
    · cases h
    · cases h
      trivial
  | upsertDataset q peer now' =>
    simp only [storeOperation] at h
    split at h
    · cases h
    · cases h
      trivial
  | createTrainingJob q peer now' =>
    simp only [storeOperation] at h
    split at h
    · cases h
    · cases h
      trivial
  | rollbackModel q peer now' =>
    simp only [storeOperation] at h
    split at h
    · cases h
    · cases h
      trivial
  | _ => cases h

theorem filterMap_restored {es : List (Event F)} (h : ∀ e ∈ es, ∃ t m v w, e = .restored t m v w) :
    es.filterMap creditOf = [] := by
  rw [List.filterMap_eq_nil_iff]
  intro e he
  obtain ⟨t, m, v, w, rfl⟩ := h e he
  rfl

/-- The clients in registration have not been active yet. -/
def FreshClients (s : Server F) : Prop :=
  ∀ info, clientInRegistration s = some info → info.lastActiveRound = -1

theorem afterAttempt_reached (cfg : Config F) (job : Option PersistedTrainingJobRecord)
    (result : AggregationAttemptResult) {k : ℕ} (hk : k ≤ 8) :
    reached k (afterAttempt cfg job result) = result.accepted := by
  rcases afterAttempt_cases cfg job result with ⟨j, -, hr, hp⟩ | ⟨-, hr, hp⟩ | ⟨hr, hp⟩
  · rw [hp, hr, reached_of_stage _ (by simp [stage]), decide_eq_true_eq]
    simp only [stage]
    omega
  · rw [hp, hr]
    rfl
  · rw [hp, hr]
    rfl

theorem Bystander.account (h : Bystander d s a s') {k : ℕ} (hk : 0 < k) :
    account k s' = account k s := by
  unfold SubmissionAccounts.account
  rw [h.credits, h.progress k hk]

theorem account_submitting {c : Submitting F} (hc : submitting s = some c) (k : ℕ) :
    account k s = credits s ++ if reached k c.point then [credit c] else [] := by
  rw [account, creditFrom_some hc]

theorem credit_normal (c : Submitting F) :
    InNormalScope (credit c).tenantId (credit c).modelId := inNormalScope_normalize _ _

theorem submitOperation_calming {q : SubmitWeightsRequest} {p : SubmitPoint F}
    (h : stage p < 6 ∨ 8 ≤ stage p) {op : Operation} (hop : submitOperation d q p = some op) :
    Calming op := by
  cases p with
  | updateClient job weights => simp [stage] at h
  | recordSubmission job weights => simp [stage] at h
  | validate current job =>
    cases hop
    trivial
  | record job pr keyVersion =>
    cases hop
    trivial
  | accept job result =>
    cases hop
    trivial
  | advance job result =>
    cases hop
    trivial
  | _ => cases hop

theorem submitting_calming {c : Submitting F} (hc : submitting s = some c)
    (hstage : stage c.point < 6 ∨ 8 ≤ stage c.point) {o : Oracle F} {op : Operation} {now : ℕ}
    (h : storeOperation d s (.proceed o) = some (op, now)) : Calming op := by
  obtain ⟨op', hop, hpair⟩ := Option.map_eq_some_iff.mp h
  cases hpair
  rw [federated_of_submitting hc] at hop
  exact submitOperation_calming hstage hop

/-- What every run keeps under the condition. -/
structure Ready (s : Server F) : Prop where
  order : InOrder s
  scheduled : InFlight Scheduled s
  reserved : Reserved s
  stored : StoreReached s
  fresh : FreshClients s
  accounted : Accounted s

theorem initial_ready (d : Deployment F) (start : Start) : Ready (initial d start) where
  order := initial_inOrder d start
  scheduled := by
    intro c job hc
    cases hc
  reserved := initial_reserved d start
  stored := initial_storeReached d start
  fresh := by
    intro info hinfo
    cases hinfo
  accounted := {
    store := booked_empty _
    disk := booked_empty _
    registry := by
      intro key r hr
      cases hr
    normal := by
      intro c hc
      cases hc }

theorem goodLease_of_acceptance (h : InFlight Scheduled s) {c : Submitting F}
    (hc : submitting s = some c) {job : PersistedTrainingJobRecord}
    {result : AggregationAttemptResult} (hpoint : c.point = .accept job result) {now : ℕ}
    (hok : (acceptance s.world.store c.q now).value = .ok ()) :
    goodLease s.world.store c.q now = true := by
  obtain ⟨hactive, -⟩ := h c (some job) hc (by rw [hpoint]; rfl) rfl
  obtain ⟨active, hfound⟩ := Option.isSome_iff_exists.mp hactive
  unfold acceptance acceptTrainingAssignmentSubmission at hok
  dsimp only at hok
  split at hok
  · rename_i hnone
    have hgone := check_noActiveJob hnone
    rw [getActive_expire] at hgone
    rw [activeJob, hgone] at hfound
    cases hfound
  · cases hok
  · cases hok
  · rename_i a hpassed
    obtain ⟨active', hfound', hid, -, hnamed, -, hstatus⟩ := check_passed hpassed
    rw [getActive_expire] at hfound'
    rw [leaseNamed_expire] at hnamed
    obtain ⟨b, hb, rfl⟩ := Option.map_eq_some_iff.mp hnamed
    have hlive : hasLapsed (currentTimestamp now) b = false := by
      by_contra hlapsed
      rw [Bool.not_eq_false] at hlapsed
      rw [lapse, if_pos hlapsed] at hstatus
      cases hstatus
    have hleased : b.status = .leased := (lapse_kept (currentTimestamp now) b).leased hstatus
    have hactive' : activeJob s.world.store c.q = some active' := hfound'
    simp [goodLease, hactive', hid, liveLease, hb, hlive, hleased]

variable [FloatArith F]

/-- The round waits for more clients, or its weights pass the validation and
their aggregate can be written. -/
def addsSoundly (d : Deployment F) (w : World F) (q : SubmitWeightsRequest)
    (job : Option PersistedTrainingJobRecord) (weights : List F) (draw : Draw F) : Bool :=
  let clients := submissions (insertSubmission w.buffer d.config.clipNorm
    (submission d.config q job weights)) (requestKey q)
  decide (clients.entries.length < max 1 (requiredClients d.config job)) ||
    (validateWeights clients == "" && draw.persistence == .written)

/-- The condition of one step of a submission. -/
def passes (d : Deployment F) (w : World F) (q : SubmitWeightsRequest) (o : Oracle F) :
    SubmitPoint F → Bool
  | .add job weights => addsSoundly d w q job weights o.draw
  | .accept _ _ => goodLease w.store q o.now
  | _ => true

/-- The buffer takes what was counted, leases are good at their acceptance, and
no restart comes between the mark in the store and the answer. -/
def accountable (d : Deployment F) (s : Server F) : Action F → Bool
  | .proceed o => (submitting s).all (fun c => passes d s.world c.q o c.point)
  | .restart _ => (submitting s).all (fun c => !reached 7 c.point)
  | _ => true

/-- Nothing is written for a submission: no count, no event, no round. -/
structure Unmoved (w w' : World F) : Prop where
  store : Calm w.store w'.store
  registry : RoundsKept w.registry w'.registry

theorem stepCall_roundsKept {now : ℕ} {call : Call F}
    {next : World F × Option (Call F) × List (Event F)} (h : stepCall d s now call = some next) :
    RoundsKept s.world.registry next.1.registry := by
  by_cases hworker : ∃ q peer p, call = .registerWorker q peer p
  · obtain ⟨q, peer, p, rfl⟩ := hworker
    cases h
    cases p with
    | isRegistered => exact roundsKept_refl _
    | register => exact register_roundsKept _ rfl
    | bind => exact bind_roundsKept _ _ _ _ _
    | record registeredAt => exact roundsKept_refl _
  · push Not at hworker
    rw [(stepCall_other h hworker).1]
    exact roundsKept_refl _

theorem step_roundsKept (h : Process.step d s a = some s') (hrunning : ∀ start, a ≠ .restart start)
    (hother : ∀ o c, a = .proceed o → submitting s ≠ some c) :
    RoundsKept s.world.registry s'.world.registry := by
  cases step_stepped h with
  | refused hrequest => exact roundsKept_refl _
  | registerClient hidle hpasses => exact register_roundsKept _ rfl
  | getTrainingConfig hidle hpasses => exact roundsKept_refl _
  | submitWeights hidle => exact roundsKept_refl _
  | @registering o info p hcall =>
    cases p with
    | latestModel accepted => exact roundsKept_refl _
    | modelVersion accepted round => exact roundsKept_refl _
    | record response => exact roundsKept_refl _
    | audit response => exact roundsKept_refl _
  | @configuring o q p hcall =>
    cases p <;> exact roundsKept_refl _
  | @submitting o q peer n p hcall =>
    exact absurd (by rw [submitting, hcall]) (hother o ⟨q, peer, n, p⟩ rfl)
  | registerWorker hworker hpasses => exact roundsKept_refl _
  | leaseTrainingTask hworker hpasses hknown => exact roundsKept_refl _
  | reportTaskStatus hworker hpasses => exact roundsKept_refl _
  | heartbeat hworker hpasses => exact roundsKept_refl _
  | upsertDataset hadmin hpasses => exact roundsKept_refl _
  | createTrainingJob hadmin hpasses hdataset => exact roundsKept_refl _
  | rollbackMissed hadmin hpasses hmissed => exact roundsKept_refl _
  | rollbackModel hadmin hpasses htarget => exact roundsKept_refl _
  | rotateAtRestKey hadmin hrotated => exact roundsKept_refl _
  | call hcall hnext => exact stepCall_roundsKept hnext
  | restart hs => exact absurd rfl (hrunning _)

theorem step_bystander (hfresh : ∀ info, clientInRegistration s = some info →
      info.lastActiveRound = -1) (h : Process.step d s a = some s')
    (hrunning : ∀ start, a ≠ .restart start)
    (hother : ∀ o c, a = .proceed o → submitting s ≠ some c) : Bystander d s a s' := by
  refine ⟨hrunning, fun op now hop => operation_calming hfresh hother hop,
    step_roundsKept h hrunning hother, ?_, ?_⟩
  · cases step_jobStep h with
    | moved _ _ hsame _ _ =>
      obtain ⟨es, hes, hrestored⟩ := hsame.history
      rw [credits, Server.events, hsame.past, hes, ← List.append_assoc, List.filterMap_append,
        filterMap_restored hrestored, List.append_nil]
      rfl
    | create _ => rfl
    | @submit q peer _ =>
      rw [credits, Server.events, startSubmit, ← List.append_assoc, List.filterMap_append]
      have hnone : (if checkSubmitWeights q peer = "" ∧
          submitIsRegistered s.world.registry q peer = true then
          [(Event.passed (normalizeTenant q.tenantId) (normalizeModel q.modelId) q.clientId
            (normalizePeerIdentity peer.identity) : Event F)] else []).filterMap creditOf = [] := by
        split <;> rfl
      rw [hnone, List.append_nil]
      rfl
    | @proceed c o hc => exact absurd hc (hother o c rfl)
    | restart hrestart => exact absurd rfl (hrunning _)
  · intro k hk
    cases step_jobStep h with
    | moved _ _ _ _ hsubmit => rw [creditFrom, creditFrom, hsubmit]
    | create _ => rfl
    | @submit q peer hidle =>
      rw [creditFrom_none (submitting_none hidle), creditFrom_some submitting_startSubmit]
      rcases startSubmitWeights_cases s.world.registry q peer with hp | ⟨message, hp⟩
      · have hearly : reached k (SubmitPoint.modelVersion : SubmitPoint F) = false := by
          rw [reached_of_stage _ (by simp [stage]), decide_eq_false_iff_not]
          exact not_le.mpr hk
        rw [hp, hearly]
        rfl
      · rw [hp]
        rfl
    | @proceed c o hc => exact absurd hc (hother o c rfl)
    | restart hrestart => exact absurd rfl (hrunning _)

theorem step_freshClients (h : FreshClients s) (hs : Process.step d s a = some s') :
    FreshClients s' := by
  cases step_bindingStep hs with
  | kept hkept =>
    intro info hinfo
    rw [hkept.client] at hinfo
    exact h info hinfo
  | @registerClient q peer now _ hreject =>
    intro info hinfo
    rw [startRegisterClient, if_neg (by rw [hreject]; decide)] at hinfo
    obtain rfl := Option.some.inj hinfo
    rfl
  | submit _ =>
    intro info hinfo
    cases hinfo
  | recordClient _ =>
    intro info hinfo
    cases hinfo
  | addWorker hkept _ =>
    intro info hinfo
    exact h info (hkept.client ▸ hinfo)
  | worker _ => exact h
  | restart hrestart =>
    obtain ⟨w, -, rfl⟩ := Option.map_eq_some_iff.mp hrestart
    intro info hinfo
    cases hinfo

theorem booked_step {counted marked : List Credit}
    (hstore : Booked counted marked s.world.store) (hdisk : Booked counted marked s.world.disk)
    (h : Process.step d s a = some s') (hrunning : ∀ start, a ≠ .restart start)
    (hop : ∀ op now, storeOperation d s a = some (op, now) → Calming op) :
    Booked counted marked s'.world.store ∧ Booked counted marked s'.world.disk := by
  rcases step_performed h hrunning with ⟨-, hs, hd⟩ | ⟨op, now, hperformed, hs, hd⟩
  · rw [hs, hd]
    exact ⟨hstore, hdisk⟩
  · have hcalm := hstore.calm (perform_calm _ now (hop op now hperformed))
    rw [← hs] at hcalm
    refine ⟨hcalm, ?_⟩
    rcases hd with hd | hd
    · rw [hd]
      exact hcalm
    · rw [hd]
      exact hdisk

theorem reached_add {w : World F} {q : SubmitWeightsRequest} {peer : Peer} {o : Oracle F}
    {job : Option PersistedTrainingJobRecord} {weights : List F} {p : SubmitPoint F}
    (h : (stepSubmitWeights d w q peer o (.add job weights)).2 = .inl p)
    (hopen : requestKey q ∉ w.buffer.completedRounds) {k : ℕ} (hk : k ≤ 8) :
    reached k p = addsSoundly d w q job weights o.draw := by
  have hopen' : roundKey (submission d.config q job weights).tenantId
      (submission d.config q job weights).modelId (submission d.config q job weights).round ∉
      w.buffer.completedRounds := hopen
  let clients := submissions (insertSubmission w.buffer d.config.clipNorm
    (submission d.config q job weights)) (requestKey q)
  have hsound : addsSoundly d w q job weights o.draw =
      (decide (clients.entries.length < max 1 (requiredClients d.config job)) ||
        (validateWeights clients == "" && o.draw.persistence == .written)) := rfl
  rw [hsound]
  simp only [stepSubmitWeights, Sum.inl.injEq] at h
  subst h
  unfold addWeight
  simp only [hopen', if_false]
  split_ifs with hfew hinvalid
  · have hfew' : clients.entries.length < max 1 (requiredClients d.config job) := hfew
    rw [decide_eq_true hfew', Bool.true_or]
    exact afterAttempt_reached _ _ _ hk
  · have hfew' : ¬ clients.entries.length < max 1 (requiredClients d.config job) := hfew
    have hinvalid' : validateWeights clients ≠ "" := hinvalid
    rw [decide_eq_false hfew', Bool.false_or, beq_eq_false_iff_ne.mpr hinvalid', Bool.false_and]
    exact afterAttempt_reached _ _ _ hk
  · have hfew' : ¬ clients.entries.length < max 1 (requiredClients d.config job) := hfew
    have hvalid' : validateWeights clients = "" := not_not.mp hinvalid
    rw [decide_eq_false hfew', Bool.false_or, beq_iff_eq.mpr hvalid', Bool.true_and]
    unfold persist
    cases o.draw.persistence with
    | written =>
      rw [reached_of_stage _ (by simp [stage]), decide_eq_true]
      · rfl
      · simp only [stage]
        omega
    | cannotOpen => exact afterAttempt_reached _ _ _ hk
    | shortWrite => exact afterAttempt_reached _ _ _ hk
    | threw what => exact afterAttempt_reached _ _ _ hk

theorem credits_next {c : Submitting F} {o : Oracle F} {p : SubmitPoint F}
    (h : (stepSubmitWeights d s.world c.q c.peer o c.point).2 = .inl p) :
    credits (proceedSubmit d s c.q c.peer c.serial o c.point) = credits s := by
  have hnone : (observe d s c.q c.peer c.serial o c.point).filterMap creditOf = [] := by
    rw [List.filterMap_eq_nil_iff]
    intro e he
    have hobserved := observe_observed he
    generalize hpoint : c.point = x at hobserved
    cases hobserved with
    | answered _ =>
      rw [hpoint] at h
      cases h
    | _ => rfl
  rw [credits, Server.events, proceedSubmit, ← List.append_assoc, List.filterMap_append, hnone,
    List.append_nil]
  rfl

theorem account_next {c : Submitting F} {o : Oracle F} {p : SubmitPoint F}
    (h : (stepSubmitWeights d s.world c.q c.peer o c.point).2 = .inl p) (k : ℕ) :
    account k (proceedSubmit d s c.q c.peer c.serial o c.point) =
      credits s ++ if reached k p then [credit c] else [] := by
  have hafter := submitting_proceed.mpr ⟨p, h, rfl⟩
  rw [account, credits_next h, creditFrom_some hafter]
  rfl

theorem account_respond {c : Submitting F} (hc : submitting s = some c) {o : Oracle F}
    {text : SubmitWeightsResponse} {countClients : Bool}
    (hpoint : c.point = .respond text countClients) (k : ℕ) :
    account k (proceedSubmit d s c.q c.peer c.serial o c.point) = account k s := by
  have hafter : submitting (proceedSubmit d s c.q c.peer c.serial o c.point) = none := by
    rw [hpoint]
    rfl
  rw [account, creditFrom_none hafter, account_submitting hc, hpoint, List.append_nil, credits,
    Server.events, proceedSubmit, ← List.append_assoc, List.filterMap_append]
  congr 1
  by_cases haccepted : text.accepted = true
  · simp [observe, stepSubmitWeights, creditOf, reached, credit, haccepted]
  · simp [observe, stepSubmitWeights, creditOf, reached, haccepted]

/-- Apart from the three writing steps a submission neither gains nor loses
credit, if it meets the condition. -/
theorem reached_next {w : World F} {q : SubmitWeightsRequest} {peer : Peer} {o : Oracle F}
    {p p' : SubmitPoint F} (h : (stepSubmitWeights d w q peer o p).2 = .inl p')
    (hpass : passes d w q o p = true) (hopen : stage p = 8 → requestKey q ∉ w.buffer.completedRounds)
    (haccept : ∀ job result, p = .accept job result → (acceptance w.store q o.now).value = .ok ())
    {k : ℕ} (hk : 6 ≤ k) (hk' : k ≤ 8) (hstage : stage p < 5 ∨ 8 ≤ stage p) :
    reached k p' = reached k p := by
  have hlow : ∀ x : SubmitPoint F, stage x < 6 → reached k x = false := by
    intro x hx
    rw [reached_of_stage _ (by omega), decide_eq_false_iff_not]
    omega
  have hhigh : ∀ x : SubmitPoint F, 8 ≤ stage x → stage x ≠ 14 → reached k x = true := by
    intro x hx hne
    rw [reached_of_stage _ hne, decide_eq_true_eq]
    omega
  cases p with
  | modelVersion =>
    obtain rfl := Sum.inl.inj h
    rw [hlow .modelVersion (by simp [stage])]
    split
    · rfl
    · exact hlow _ (by simp [stage])
  | activeJob current =>
    rw [hlow (.activeJob current) (by simp [stage])]
    simp only [stepSubmitWeights] at h
    split at h
    · obtain rfl := Sum.inl.inj h
      exact hlow _ (by simp [stage])
    · obtain rfl := Sum.inl.inj h
      exact hlow _ (by simp [stage])
  | validate current job =>
    obtain rfl := Sum.inl.inj h
    rw [hlow (.validate current job) (by simp [stage])]
    split
    · rfl
    · exact hlow _ (by simp [stage])
  | roundCheck current job =>
    obtain rfl := Sum.inl.inj h
    rw [hlow (.roundCheck current job) (by simp [stage])]
    split
    · rfl
    · exact hlow _ (by simp [stage])
  | duplicateCheck current job =>
    obtain rfl := Sum.inl.inj h
    rw [hlow (.duplicateCheck current job) (by simp [stage])]
    split
    · rfl
    · exact hlow _ (by simp [stage])
  | decrypt job => simp [stage] at hstage
  | updateClient job weights => simp [stage] at hstage
  | recordSubmission job weights => simp [stage] at hstage
  | add job weights =>
    rw [hhigh (.add job weights) (by simp [stage]) (by simp [stage]), reached_add h (hopen rfl) hk']
    exact hpass
  | keyVersion job pr =>
    obtain rfl := Sum.inl.inj h
    rw [hhigh _ (by simp [stage]) (by simp [stage]), hhigh _ (by simp [stage]) (by simp [stage])]
  | record job pr keyVersion =>
    obtain rfl := Sum.inl.inj h
    rw [hhigh _ (by simp [stage]) (by simp [stage]), hhigh _ (by simp [stage]) (by simp [stage])]
  | publish job pr modelVersion =>
    obtain rfl := Sum.inl.inj h
    rw [hhigh (.publish job pr modelVersion) (by simp [stage]) (by simp [stage])]
    exact afterAttempt_reached _ _ _ hk'
  | accept job result =>
    rw [hhigh (.accept job result) (by simp [stage]) (by simp [stage])]
    have hok := haccept job result rfl
    rw [acceptance] at hok
    simp only [stepSubmitWeights, hok] at h
    obtain rfl := Sum.inl.inj h
    split
    · exact hhigh _ (by simp [stage]) (by simp [stage])
    · rfl
  | advance job result =>
    obtain rfl := Sum.inl.inj h
    rw [hhigh (.advance job result) (by simp [stage]) (by simp [stage])]
    rfl
  | respond response countClients => cases h

theorem registry_of_stage {w : World F} {q : SubmitWeightsRequest} {peer : Peer} {o : Oracle F}
    {p : SubmitPoint F} (h : stage p ≠ 5) :
    (stepSubmitWeights d w q peer o p).1.registry = w.registry := by
  cases p with
  | decrypt job => exact absurd rfl h
  | activeJob current =>
    simp only [stepSubmitWeights]
    split <;> rfl
  | _ => rfl

theorem quiet_accounted {c : Submitting F} (h : Accounted s) (hc : submitting s = some c)
    {o : Oracle F} (hs : Process.step d s (.proceed o) =
      some (proceedSubmit d s c.q c.peer c.serial o c.point))
    (hstage : stage c.point < 5 ∨ 8 ≤ stage c.point)
    (haccount : ∀ k, 6 ≤ k → k ≤ 8 →
      account k (proceedSubmit d s c.q c.peer c.serial o c.point) = account k s)
    (hnormal : ∀ x ∈ credits (proceedSubmit d s c.q c.peer c.serial o c.point),
      InNormalScope x.tenantId x.modelId) :
    Accounted (proceedSubmit d s c.q c.peer c.serial o c.point) := by
  have hbooked := booked_step h.store h.disk hs (fun _ heq => by cases heq) (fun _ _ =>
    submitting_calming hc (by omega))
  refine ⟨?_, ?_, ?_, hnormal⟩
  · rw [haccount 8 (by decide) (by decide), haccount 7 (by decide) (by decide)]
    exact hbooked.1
  · rw [haccount 8 (by decide) (by decide), haccount 7 (by decide) (by decide)]
    exact hbooked.2
  · rw [haccount 6 (by decide) (by decide)]
    show Marked _ (stepSubmitWeights d s.world c.q c.peer o c.point).1.registry
    rw [registry_of_stage (by omega)]
    exact h.registry

theorem decrypt_accounted {c : Submitting F} (h : Accounted s) (hc : submitting s = some c)
    (o : Oracle F) {job : Option PersistedTrainingJobRecord} (hpoint : c.point = .decrypt job) :
    Accounted (proceedSubmit d s c.q c.peer c.serial o c.point) := by
  have hbefore : ∀ k, 6 ≤ k → account k s = credits s := by
    intro k hk
    have hlow : reached k c.point = false := by
      rw [hpoint, reached_of_stage _ (by simp [stage]), decide_eq_false_iff_not]
      simp only [stage]
      omega
    rw [account_submitting hc, hlow, if_neg (by decide), List.append_nil]
  have hstore := h.store
  have hdisk := h.disk
  have hregistry := h.registry
  rw [hbefore 8 (by decide), hbefore 7 (by decide)] at hstore hdisk
  rw [hbefore 6 (by decide)] at hregistry
  cases hopened : decryptSubmission (F := F) d.primitives s.world.crypto c.q c.peer with
  | error message =>
    have hstep : stepSubmitWeights d s.world c.q c.peer o c.point =
        (s.world, .inl (.refuse message 0)) := by
      rw [hpoint]
      simp only [stepSubmitWeights, hopened]
    have hnext := congrArg Prod.snd hstep
    have hafter : ∀ k, account k (proceedSubmit d s c.q c.peer c.serial o c.point) = credits s := by
      intro k
      rw [account_next hnext]
      exact List.append_nil _
    have hworld : (proceedSubmit d s c.q c.peer c.serial o c.point).world = s.world :=
      congrArg Prod.fst hstep
    refine ⟨?_, ?_, ?_, ?_⟩
    · rw [hafter, hafter, hworld]
      exact hstore
    · rw [hafter, hafter, hworld]
      exact hdisk
    · rw [hafter, hworld]
      exact hregistry
    · rw [credits_next hnext]
      exact h.normal
  | ok weights =>
    have hstep : stepSubmitWeights d s.world c.q c.peer o c.point =
        ({ s.world with
          registry := updateLastActiveRound s.world.registry (normalizeTenant c.q.tenantId)
            (normalizeModel c.q.modelId) c.q.clientId c.q.roundIndex },
          .inl (.updateClient job weights)) := by
      rw [hpoint]
      simp only [stepSubmitWeights, hopened]
    have hnext := congrArg Prod.snd hstep
    have hworld : (proceedSubmit d s c.q c.peer c.serial o c.point).world = _ :=
      congrArg Prod.fst hstep
    have hafter : ∀ k, 6 < k → account k (proceedSubmit d s c.q c.peer c.serial o c.point) =
        credits s := by
      intro k hk
      have hlow : reached k (SubmitPoint.updateClient job weights) = false := by
        rw [reached_of_stage _ (by simp [stage]), decide_eq_false_iff_not]
        simp only [stage]
        omega
      rw [account_next hnext, hlow, if_neg (by decide), List.append_nil]
    refine ⟨?_, ?_, ?_, ?_⟩
    · rw [hafter 8 (by decide), hafter 7 (by decide), hworld]
      exact hstore
    · rw [hafter 8 (by decide), hafter 7 (by decide), hworld]
      exact hdisk
    · rw [account_next hnext, hworld]
      exact hregistry.update (credit c)
    · rw [credits_next hnext]
      exact h.normal

theorem written_accounted {c : Submitting F} (h : Accounted s) (hc : submitting s = some c)
    {o : Oracle F} {p : SubmitPoint F} {written : Outcome Unit} (hsave : written.save = true)
    (hstep : stepSubmitWeights d s.world c.q c.peer o c.point =
      (s.world.after written, .inl p))
    (hbooked : Booked (credits s ++ if reached 8 p then [credit c] else [])
      (credits s ++ if reached 7 p then [credit c] else []) written.store)
    (hmarked : reached 6 p = reached 6 c.point) :
    Accounted (proceedSubmit d s c.q c.peer c.serial o c.point) := by
  have hnext := congrArg Prod.snd hstep
  have hworld : (proceedSubmit d s c.q c.peer c.serial o c.point).world = s.world.after written :=
    congrArg Prod.fst hstep
  have hdisk : (s.world.after written).disk = written.store := if_pos hsave
  refine ⟨?_, ?_, ?_, ?_⟩
  · rw [account_next hnext, account_next hnext, hworld]
    exact hbooked
  · rw [account_next hnext, account_next hnext, hworld, hdisk]
    exact hbooked
  · rw [account_next hnext, hworld, hmarked, ← account_submitting hc]
    exact h.registry
  · rw [credits_next hnext]
    exact h.normal

theorem updateClient_accounted {c : Submitting F} (h : Accounted s) (hc : submitting s = some c)
    (o : Oracle F) {job : Option PersistedTrainingJobRecord} {weights : List F}
    (hpoint : c.point = .updateClient job weights) :
    Accounted (proceedSubmit d s c.q c.peer c.serial o c.point) := by
  have hstep : stepSubmitWeights d s.world c.q c.peer o c.point =
      (s.world.after (updateClientLastRound s.world.store (normalizeTenant c.q.tenantId)
        (normalizeModel c.q.modelId) c.q.clientId c.q.roundIndex),
        .inl (.recordSubmission job weights)) := by
    rw [hpoint]
    rfl
  have hstore := h.store
  rw [account_submitting hc, account_submitting hc, hpoint] at hstore
  have hbooked := hstore.update (credit_normal c)
  rw [List.append_assoc] at hbooked
  exact written_accounted h hc rfl hstep hbooked (by rw [hpoint]; rfl)

theorem recordSubmission_accounted {c : Submitting F} (h : Accounted s)
    (hc : submitting s = some c) (o : Oracle F) {job : Option PersistedTrainingJobRecord}
    {weights : List F} (hpoint : c.point = .recordSubmission job weights) :
    Accounted (proceedSubmit d s c.q c.peer c.serial o c.point) := by
  have hstep : stepSubmitWeights d s.world c.q c.peer o c.point =
      (s.world.after (recordWeightSubmission s.world.store (normalizeTenant c.q.tenantId)
        (normalizeModel c.q.modelId) c.q.clientId c.q.roundIndex o.now),
        .inl (.add job weights)) := by
    rw [hpoint]
    rfl
  have hstore := h.store
  rw [account_submitting hc, account_submitting hc, hpoint] at hstore
  have hbooked := hstore.record (credit_normal c) o.now
  rw [List.append_assoc] at hbooked
  exact written_accounted h hc rfl hstep hbooked (by rw [hpoint]; rfl)

theorem restart_accounted {start : Start} (hreached : StoreReached s) (h : Accounted s)
    (ha : accountable d s (.restart start) = true) (hs : restart d.primitives s start = some s') :
    Accounted s' := by
  have hrestarted := restart_restarted hreached hs
  have hcredits : credits s' = credits s := congrArg (List.filterMap creditOf) hrestarted.events
  have hnone : ∀ k, 7 ≤ k → k ≤ 8 → account k s = credits s := by
    intro k hk hk'
    rw [account]
    cases hc : submitting s with
    | none => rw [creditFrom_none hc, List.append_nil]
    | some c =>
      have hquiet : reached 7 c.point = false := by simpa [accountable, hc] using ha
      have hlate : reached k c.point = false := by
        by_cases hrespond : stage c.point = 14
        · cases hp : c.point with
          | respond response countClients =>
            rw [hp] at hquiet
            exact hquiet
          | _ => simp [hp, stage] at hrespond
        · rw [reached_of_stage _ hrespond, decide_eq_false_iff_not] at hquiet ⊢
          omega
      rw [creditFrom_some hc, hlate, if_neg (by decide), List.append_nil]
  have hafter : ∀ k, account k s' = credits s := by
    intro k
    have hidle : submitting s' = none := submitting_none hrestarted.federated
    rw [account, creditFrom_none hidle, List.append_nil, hcredits]
  have hdisk := h.disk
  rw [hnone 8 (by decide) (by decide), hnone 7 (by decide) (by decide)] at hdisk
  obtain ⟨n, p, hrun, hside⟩ := hreached
  have htidy := (run_backed hrun).disk
  rw [hside.disk] at htidy
  have hbooked : Booked (credits s) (credits s) s'.world.store ∧
      Booked (credits s) (credits s) s'.world.disk := by
    obtain ⟨w, hw, rfl⟩ := Option.map_eq_some_iff.mp hs
    obtain ⟨keys, -, rfl⟩ := Option.map_eq_some_iff.mp hw
    have hloaded := hdisk.load htidy h.normal start.now
    have hset := hloaded.calm (perform_calm _ start.now
      (show Calming (.updateActiveKeyVersion keys.1.activeKeyVersion) from trivial))
    refine ⟨hset, ?_⟩
    show Booked _ _ (if (updateActiveKeyVersion _ _ _).save then _ else _)
    split
    · exact hset
    · exact hloaded
  refine ⟨?_, ?_, ?_, ?_⟩
  · rw [hafter, hafter]
    exact hbooked.1
  · rw [hafter, hafter]
    exact hbooked.2
  · rw [hafter, hrestarted.registry]
    exact hbooked.1.registry
  · rw [hcredits]
    exact h.normal

/-- A submission that meets the condition keeps its credit, and does not get any
outside of the writing steps. -/
theorem Ready.reached_next (h : Ready s) {c : Submitting F} (hc : submitting s = some c)
    {o : Oracle F} (ha : accountable d s (.proceed o) = true) {p : SubmitPoint F}
    (hnext : (stepSubmitWeights d s.world c.q c.peer o c.point).2 = .inl p) {k : ℕ} (hk : 6 ≤ k)
    (hk' : k ≤ 8) (hstage : stage c.point < 5 ∨ 8 ≤ stage c.point) :
    reached k p = reached k c.point := by
  have hpass : passes d s.world c.q o c.point = true := by simpa [accountable, hc] using ha
  apply SubmissionAccounts.reached_next hnext hpass _ _ hk hk' hstage
  · intro hadd
    exact h.reserved.openRound c hc (by omega) (by omega)
  · intro job result hpoint
    rw [hpoint] at hpass
    exact acceptance_of_goodLease h.scheduled hc hpoint hpass

theorem submit_accounted (h : Ready s) {c : Submitting F} (hc : submitting s = some c)
    {o : Oracle F} (ha : accountable d s (.proceed o) = true) (hs : Process.step d s (.proceed o) =
      some (proceedSubmit d s c.q c.peer c.serial o c.point)) :
    Accounted (proceedSubmit d s c.q c.peer c.serial o c.point) := by
  have hquiet : ∀ p, (stepSubmitWeights d s.world c.q c.peer o c.point).2 = .inl p →
      (stage c.point < 5 ∨ 8 ≤ stage c.point) →
      Accounted (proceedSubmit d s c.q c.peer c.serial o c.point) := by
    intro p hnext hstage
    apply quiet_accounted h.accounted hc hs hstage
    · intro k hk hk'
      rw [account_next hnext, account_submitting hc, h.reached_next hc ha hnext hk hk' hstage]
    · rw [credits_next hnext]
      exact h.accounted.normal
  by_cases hrespond : stage c.point = 14
  · obtain ⟨text, countClients, hpoint⟩ : ∃ text countClients,
        c.point = .respond text countClients := by
      cases hp : c.point <;> simp_all [stage]
    apply quiet_accounted h.accounted hc hs (by omega)
    · exact fun k _ _ => account_respond hc hpoint k
    · intro x hx
      have hmem : x ∈ account 8 s := by
        rw [← account_respond hc (d := d) (o := o) hpoint 8]
        exact List.mem_append_left _ hx
      rw [account_submitting hc] at hmem
      rcases List.mem_append.mp hmem with hold | hown
      · exact h.accounted.normal x hold
      · split at hown
        · rw [List.mem_singleton.mp hown]
          exact credit_normal c
        · cases hown
  obtain ⟨p, hnext⟩ := next_of_stage d s.world c.q c.peer o hrespond
  cases hp : c.point with
  | decrypt job => exact hp ▸ decrypt_accounted h.accounted hc o hp
  | updateClient job weights => exact hp ▸ updateClient_accounted h.accounted hc o hp
  | recordSubmission job weights => exact hp ▸ recordSubmission_accounted h.accounted hc o hp
  | _ => exact hp ▸ hquiet p hnext (by simp [hp, stage])

theorem step_submitting {c : Submitting F} {o : Oracle F}
    (hc : submitting s = some c) (hs : Process.step d s (.proceed o) = some s') :
    s' = proceedSubmit d s c.q c.peer c.serial o c.point := by
  simp only [Process.step, Process.proceed, federated_of_submitting hc, Option.some.injEq] at hs
  exact hs.symm

theorem step_accounted (h : Ready s) (ha : accountable d s a = true)
    (hs : Process.step d s a = some s') : Accounted s' := by
  by_cases hown : ∃ o c, a = .proceed o ∧ submitting s = some c
  · obtain ⟨o, c, rfl, hc⟩ := hown
    obtain rfl := step_submitting hc hs
    exact submit_accounted h hc ha hs
  by_cases hrestart : ∃ start, a = .restart start
  · obtain ⟨start, rfl⟩ := hrestart
    exact restart_accounted h.stored h.accounted ha hs
  push Not at hown hrestart
  have hby := step_bystander h.fresh hs hrestart hown
  have hbooked := booked_step h.accounted.store h.accounted.disk hs hrestart hby.operation
  refine ⟨?_, ?_, ?_, ?_⟩
  · rw [hby.account (by decide), hby.account (by decide)]
    exact hbooked.1
  · rw [hby.account (by decide), hby.account (by decide)]
    exact hbooked.2
  · rw [hby.account (by decide)]
    exact h.accounted.registry.kept hby.registry
  · rw [hby.credits]
    exact h.accounted.normal

theorem step_ready (h : Ready s) (ha : accountable d s a = true)
    (hs : Process.step d s a = some s') : Ready s' where
  order := step_inOrder h.order hs
  scheduled := step_scheduled h.order h.scheduled hs
  reserved := step_reserved h.reserved hs
  stored := step_storeReached h.stored hs
  fresh := step_freshClients h.fresh hs
  accounted := step_accounted h ha hs

/-- The numbers of answers are those of earlier requests, also of earlier processes. -/
structure Numbered (s : Server F) : Prop where
  served : ∀ n t m x r response, .answered n t m x r response ∈ s.events → n < s.served
  current : ∀ c, submitting s = some c → c.serial < s.served ∧
    ∀ n t m x r response, .answered n t m x r response ∈ s.events → n ≠ c.serial

theorem step_answered (h : Process.step d s a = some s') {n : ℕ} {t m x : String} {r : ℤ}
    {response : SubmitWeightsResponse} (he : .answered n t m x r response ∈ s'.events) :
    .answered n t m x r response ∈ s.events ∨ ∃ o c text countClients, a = .proceed o ∧
      submitting s = some c ∧ c.serial = n ∧ c.point = .respond text countClients ∧
      response.accepted = text.accepted := by
  rcases step_events h he with hold | hnew
  · exact .inl hold
  · right
    cases hnew with
    | restored he => cases he
    | passed he => cases he
    | @observed c o hact hc hobserved =>
      generalize hpoint : c.point = p at hobserved
      cases hobserved with
      | answered hverdict => exact ⟨o, c, _, _, hact, hc, rfl, hpoint, hverdict⟩

theorem step_served (h : Process.step d s a = some s') : s.served ≤ s'.served := by
  cases step_jobStep h with
  | moved _ _ _ hserved _ => exact hserved.ge
  | create _ => exact le_rfl
  | submit _ => exact Nat.le_succ _
  | proceed _ => exact le_rfl
  | restart hrestart =>
    obtain ⟨w, -, rfl⟩ := Option.map_eq_some_iff.mp hrestart
    exact le_rfl

theorem step_current (h : Process.step d s a = some s') {c' : Submitting F}
    (hc' : submitting s' = some c') :
    (c'.serial = s.served ∧ reached 6 c'.point = false) ∨
      ∃ c, submitting s = some c ∧ c'.serial = c.serial ∧
        (c' = c ∨ ∃ o p, a = .proceed o ∧ c'.point = p ∧
          (stepSubmitWeights d s.world c.q c.peer o c.point).2 = .inl p) := by
  cases step_jobStep h with
  | moved _ _ _ _ hsubmit => exact .inr ⟨c', hsubmit ▸ hc', rfl, .inl rfl⟩
  | create _ => exact .inr ⟨c', hc', rfl, .inl rfl⟩
  | @submit q peer _ =>
    left
    rw [submitting_startSubmit] at hc'
    obtain rfl := Option.some.inj hc'
    refine ⟨rfl, ?_⟩
    rcases startSubmitWeights_cases s.world.registry q peer with hp | ⟨message, hp⟩
    · rw [hp, reached_of_stage _ (by simp [stage])]
      rfl
    · rw [hp]
      rfl
  | @proceed c o hc =>
    right
    obtain ⟨p, hnext, rfl⟩ := submitting_proceed.mp hc'
    exact ⟨c, hc, rfl, .inr ⟨o, p, rfl, rfl, hnext⟩⟩
  | restart hrestart =>
    rw [(restart_empty hrestart).2.2.1] at hc'
    cases hc'

theorem step_numbered (h : Numbered s) (hs : Process.step d s a = some s') : Numbered s' where
  served := by
    intro n t m x r response he
    have hle := step_served hs
    rcases step_answered hs he with hold | ⟨o, c, text, countClients, -, hc, rfl, -, -⟩
    · exact (h.served n t m x r response hold).trans_le hle
    · exact (h.current c hc).1.trans_le hle
  current := by
    intro c' hc'
    have hle := step_served hs
    rcases step_current hs hc' with ⟨hserial, -⟩ | ⟨c, hc, hserial, hpoint⟩
    · -- the request has just come
      have hlt : s.served < s'.served := by
        cases step_jobStep hs with
        | moved _ _ _ _ hsubmit =>
          rw [hsubmit] at hc'
          exact absurd hserial (h.current c' hc').1.ne
        | create _ => exact absurd hserial (h.current c' hc').1.ne
        | submit _ => exact Nat.lt_succ_self _
        | @proceed c o hc =>
          obtain ⟨p, -, rfl⟩ := submitting_proceed.mp hc'
          exact absurd hserial (h.current c hc).1.ne
        | restart hrestart =>
          rw [(restart_empty hrestart).2.2.1] at hc'
          cases hc'
      refine ⟨hserial ▸ hlt, ?_⟩
      intro n t m x r response he
      rcases step_answered hs he with hold | ⟨o, c, text, countClients, -, hc, rfl, -, -⟩
      · exact hserial ▸ (h.served n t m x r response hold).ne
      · exact hserial ▸ (h.current c hc).1.ne
    · refine ⟨hserial ▸ (h.current c hc).1.trans_le hle, ?_⟩
      intro n t m x r response he
      rw [hserial]
      rcases step_answered hs he with hold | ⟨o, c₀, text, countClients, hact, hc₀, rfl, hend, -⟩
      · exact (h.current c hc).2 n t m x r response hold
      · -- the request that answers is no longer in progress
        subst hact
        obtain rfl := step_submitting hc₀ hs
        obtain ⟨p, hnext, -⟩ := submitting_proceed.mp hc'
        rw [hend] at hnext
        cases hnext

/-- The request of this number has written; it is answered with an acceptance or
not at all. -/
structure Settled (n : ℕ) (s : Server F) : Prop where
  served : n < s.served
  current : ∀ c, submitting s = some c → c.serial = n → reached 6 c.point = true
  answered : ∀ t m x r response, .answered n t m x r response ∈ s.events → response.accepted = true

theorem step_settled {n : ℕ} (hr : Ready s) (h : Settled n s) (ha : accountable d s a = true)
    (hs : Process.step d s a = some s') : Settled n s' where
  served := h.served.trans_le (step_served hs)
  current := by
    intro c' hc' hn
    rcases step_current hs hc' with ⟨hserial, -⟩ | ⟨c, hc, hserial, rfl | ⟨o, p, rfl, hp, hnext⟩⟩
    · exact absurd (hn.symm.trans hserial) h.served.ne
    · exact h.current _ hc hn
    · have hbefore := h.current c hc (hserial ▸ hn)
      rw [hp]
      by_cases hend : stage c.point = 14
      · cases hpoint : c.point with
        | respond text countClients =>
          rw [hpoint] at hnext
          cases hnext
        | _ => simp [hpoint, stage] at hend
      rw [reached_of_stage _ hend, decide_eq_true_eq] at hbefore
      by_cases hwrites : stage c.point < 8
      · have hgoes : stage p = stage c.point + 1 := by
          cases hpoint : c.point with
          | updateClient job weights =>
            rw [hpoint] at hnext
            obtain rfl := Sum.inl.inj hnext
            rfl
          | recordSubmission job weights =>
            rw [hpoint] at hnext
            obtain rfl := Sum.inl.inj hnext
            rfl
          | _ => simp [hpoint, stage] at hbefore hwrites
        rw [reached_of_stage _ (by omega), decide_eq_true_eq]
        omega
      · rw [hr.reached_next hc ha hnext le_rfl (by decide) (.inr (by omega)),
          reached_of_stage _ hend, decide_eq_true_eq]
        exact hbefore
  answered := by
    intro t m x r response he
    rcases step_answered hs he with hold | ⟨o, c, text, countClients, -, hc, hserial, hpoint, hverdict⟩
    · exact h.answered t m x r response hold
    · have hbefore := h.current c hc hserial
      rw [hpoint] at hbefore
      exact hverdict.trans hbefore

theorem step_calm (h : Process.step d s a = some s') (hrunning : ∀ start, a ≠ .restart start)
    (hop : ∀ op now, storeOperation d s a = some (op, now) → Calming op) :
    Calm s.world.store s'.world.store := by
  rw [step_store h hrunning]
  cases hperformed : storeOperation d s a with
  | none => exact calm_of_fields rfl
  | some performed => exact perform_calm _ performed.2 (hop performed.1 performed.2 hperformed)

theorem submit_unmoved {c : Submitting F} (hc : submitting s = some c) {o : Oracle F}
    (hs : Process.step d s (.proceed o) =
      some (proceedSubmit d s c.q c.peer c.serial o c.point)) :
    Unmoved s.world (proceedSubmit d s c.q c.peer c.serial o c.point).world ∨
      ∃ p, (stepSubmitWeights d s.world c.q c.peer o c.point).2 = .inl p ∧ reached 6 p = true := by
  have hcalm : stage c.point < 6 ∨ 8 ≤ stage c.point →
      Calm s.world.store (proceedSubmit d s c.q c.peer c.serial o c.point).world.store := by
    intro hstage
    apply step_calm hs (fun _ heq => by cases heq)
    exact fun _ _ => submitting_calming hc hstage
  have hquiet : stage c.point < 5 ∨ 8 ≤ stage c.point →
      Unmoved s.world (proceedSubmit d s c.q c.peer c.serial o c.point).world := by
    intro hstage
    refine ⟨hcalm (by omega), ?_⟩
    show RoundsKept _ (stepSubmitWeights d s.world c.q c.peer o c.point).1.registry
    rw [registry_of_stage (by omega)]
    exact roundsKept_refl _
  cases hp : c.point with
  | decrypt job =>
    cases hopened : decryptSubmission (F := F) d.primitives s.world.crypto c.q c.peer with
    | error message =>
      left
      have hworld : (proceedSubmit d s c.q c.peer c.serial o (.decrypt job)).world = s.world := by
        simp only [proceedSubmit, stepSubmitWeights, hopened]
      rw [hworld]
      exact ⟨calm_of_fields rfl, roundsKept_refl _⟩
    | ok weights =>
      right
      simp only [stepSubmitWeights, hopened]
      exact ⟨_, rfl, rfl⟩
  | updateClient job weights => exact .inr ⟨_, rfl, rfl⟩
  | recordSubmission job weights => exact .inr ⟨_, rfl, rfl⟩
  | _ => exact .inl (hp ▸ hquiet (by simp [hp, stage]))

theorem refused_next (h : Ready s) {c : Submitting F} (hc : submitting s = some c) {o : Oracle F}
    (ha : passes d s.world c.q o c.point = false) : 8 ≤ stage c.point ∧ stage c.point ≠ 14 ∧
      ∃ p, (stepSubmitWeights d s.world c.q c.peer o c.point).2 = .inl p ∧
        reached 8 p = false := by
  cases hp : c.point with
  | add job weights =>
    refine ⟨le_rfl, by simp [stage], ?_⟩
    rw [hp] at ha
    have hopen := h.reserved.openRound c hc (by simp [hp, stage]) (by simp [hp, stage])
    obtain ⟨p, hnext⟩ := next_of_stage d s.world c.q c.peer o
      (show stage (.add job weights) ≠ 14 by simp [stage])
    exact ⟨p, hnext, (reached_add hnext hopen le_rfl).trans ha⟩
  | accept job result =>
    refine ⟨by simp [stage], by simp [stage], ?_⟩
    rw [hp] at ha
    refine ⟨_, rfl, ?_⟩
    split
    · rfl
    · rename_i hok
      have hgood := goodLease_of_acceptance h.scheduled hc hp hok
      exact absurd (hgood.symm.trans ha) (by decide)
  | _ =>
    rw [hp] at ha
    cases ha

theorem unaccounted_of_refusal (h : Ready s) {o : Oracle F}
    (ha : accountable d s (.proceed o) = false) (hs : Process.step d s (.proceed o) = some s') :
    ¬ Accounted s' := by
  obtain ⟨c, hc, hrefuses⟩ : ∃ c, submitting s = some c ∧ passes d s.world c.q o c.point = false := by
    cases hc : submitting s with
    | none => simp [accountable, hc] at ha
    | some c => exact ⟨c, rfl, by simpa [accountable, hc] using ha⟩
  obtain rfl := step_submitting hc hs
  obtain ⟨hstage, hrespond, p, hnext, hlost⟩ := refused_next h hc hrefuses
  intro haccounted
  have hcalm : Calm s.world.store
      (proceedSubmit d s c.q c.peer c.serial o c.point).world.store := by
    apply step_calm hs (fun _ heq => by cases heq)
    exact fun _ _ => submitting_calming hc (.inr hstage)
  have hbefore := h.accounted.store.total
  have hafter := haccounted.store.total
  rw [account_submitting hc, reached_of_stage _ hrespond, decide_eq_true hstage, if_pos rfl,
    List.length_append, List.length_singleton] at hbefore
  rw [account_next hnext, hlost, if_neg (by decide), List.append_nil, hcalm.total] at hafter
  omega

/-- In every run that meets the condition the records are those of the accepted
answers; a step of a request writes to them only if the request is not answered
with a refusal. Any other step of a request leaves the records wrong. -/
theorem submissions_accounted {start : Start} (h : Reaches (Process.step d)
      (fun s a => accountable d s a = true) (initial d start) s) :
    Accounted s ∧
    (∀ a s', (∀ start, a ≠ .restart start) → accountable d s a = true →
      Process.step d s a = some s' → Unmoved s.world s'.world ∨
        ∃ o c, a = .proceed o ∧ submitting s = some c ∧
          ∀ s'', Reaches (Process.step d) (fun s a => accountable d s a = true) s' s'' →
            ∀ t m x r response, .answered c.serial t m x r response ∈ s''.events →
              response.accepted = true) ∧
    (∀ o s', accountable d s (.proceed o) = false → Process.step d s (.proceed o) = some s' →
      ¬ Accounted s') := by
  have hboth : Ready s ∧ Numbered s := by
    apply h.invariant (I := fun s => Ready s ∧ Numbered s)
    · refine ⟨initial_ready d start, ?_, ?_⟩
      · intro n t m x r response he
        cases he
      · intro c hc
        cases hc
    · intro s a s' hi ha hs
      exact ⟨step_ready hi.1 ha hs, step_numbered hi.2 hs⟩
  obtain ⟨hready, hnumbered⟩ := hboth
  refine ⟨hready.accounted, ?_, fun o s' ha hs => unaccounted_of_refusal hready ha hs⟩
  intro a s' hrunning ha hs
  by_cases hown : ∃ o c, a = .proceed o ∧ submitting s = some c
  · obtain ⟨o, c, rfl, hc⟩ := hown
    obtain rfl := step_submitting hc hs
    rcases submit_unmoved hc hs with hunmoved | ⟨p, hnext, hreached⟩
    · exact .inl hunmoved
    · refine .inr ⟨o, c, rfl, hc, ?_⟩
      intro s'' hrun
      have hafter := submitting_proceed.mpr ⟨p, hnext, rfl⟩
      have hsettled : Settled c.serial (proceedSubmit d s c.q c.peer c.serial o c.point) := by
        refine ⟨(hnumbered.current c hc).1, ?_, ?_⟩
        · intro c' hc' _
          obtain rfl := Option.some.inj (hafter.symm.trans hc')
          exact hreached
        · intro t m x r response he
          rcases step_answered hs he with hold | ⟨o', c', text, countClients, -, hc', -, hpoint, -⟩
          · exact absurd rfl ((hnumbered.current c hc).2 _ _ _ _ _ _ hold)
          · obtain rfl := Option.some.inj (hc.symm.trans hc')
            rw [hpoint] at hnext
            cases hnext
      have hlater : Ready s'' ∧ Settled c.serial s'' := by
        apply hrun.invariant (I := fun s => Ready s ∧ Settled c.serial s)
        · exact ⟨step_ready hready ha hs, hsettled⟩
        · intro s a s' hi ha hs
          exact ⟨step_ready hi.1 ha hs, step_settled hi.1 hi.2 ha hs⟩
      exact hlater.2.answered
  · push Not at hown
    have hby := step_bystander hready.fresh hs hrunning hown
    exact .inl ⟨step_calm hs hrunning hby.operation, hby.registry⟩

theorem acceptedRun_accountable :
    (execTested (Process.step standardDeployment) (accountable standardDeployment) acceptedRun
      (initial standardDeployment firstStart)).isSome = true := by
  decide +kernel

/-- One submission, which is accepted. -/
theorem submissions_accounted_accepted : Accounted (Option.get _ acceptedRun_accountable) :=
  (submissions_accounted (execTested_reaches _ (fun _ _ h => h) _
    (Option.some_get acceptedRun_accountable).symm)).1

/-- The second client sends a tensor of another size, and the round is not aggregated. -/
def mismatchedRun : List (Action Binary32) :=
  twoClients ++ basedOn "a" 1 0 9 ++
    .submitWeights { zeroSubmission "b" 1 "" "" with
      encryptedWeights := [0, 0, 0, 0, 0, 0, 0, 0] } site :: proceeds 9 1

/-- The second request is answered with a refusal, but it is counted, it has an
event, and its client is active in the round. -/
theorem refused_submission_counted : ∃ s, Reaches (Process.step standardDeployment) Free
      (initial standardDeployment firstStart) s ∧
    submitting s = none ∧ (credits s).map (fun c => c.clientId) = ["a"] ∧
    s.world.store.totalSubmissions = 2 ∧
    (weightEvents s.world.store).map (fun e => e.2.2.1) = ["a", "b"] ∧
    (lastRounds s.world.store).map Prod.snd = [1, 1] ∧ ¬ Accounted s := by
  have htest : (exec (Process.step standardDeployment) mismatchedRun
      (initial standardDeployment firstStart)).any (fun s =>
        (submitting s).isNone && ((credits s).map (fun c => c.clientId) == ["a"] &&
        (s.world.store.totalSubmissions == 2 &&
        ((weightEvents s.world.store).map (fun e => e.2.2.1) == ["a", "b"] &&
          (lastRounds s.world.store).map Prod.snd == [1, 1])))) = true := by
    decide +kernel
  rw [Option.any_eq_true] at htest
  obtain ⟨s, hs, hfacts⟩ := htest
  simp only [Bool.and_eq_true, Option.isNone_iff_eq_none, beq_iff_eq] at hfacts
  obtain ⟨hidle, hcredits, htotal, hevents, hrounds⟩ := hfacts
  refine ⟨s, exec_reaches _ hs, hidle, hcredits, htotal, hevents, hrounds, ?_⟩
  intro haccounted
  have hcount := haccounted.store.total
  have hlength := congrArg List.length hcredits
  rw [List.length_map] at hlength
  rw [account, creditFrom_none hidle, List.append_nil, hlength, htotal] at hcount
  exact absurd hcount (by decide)

end PqFl.SubmissionAccounts
