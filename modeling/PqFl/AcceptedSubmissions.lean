import PqFl.PendingSubmissions

/-!
# Exactly the accepted submissions are aggregated

A submission is added to the buffer before its lease is accepted, and an
addition is never taken back. When the lease is refused at the acceptance, the
answer is a refusal and the vector stays. As long as every lease is still good
at its acceptance, the vectors of a round are those of the accepted answers.
-/

set_option autoImplicit false

namespace PqFl.AcceptedSubmissions
open PqFl.Identifiers PqFl.Timestamps PqFl.StoreRecords PqFl.StateStore PqFl.Crypto
open PqFl.Aggregation PqFl.Buffer PqFl.Services PqFl.Process PqFl.JobLedger PqFl.JobSteps
open PqFl.JobRuns PqFl.ListUpdate PqFl.Runs PqFl.Floats PqFl.Configuration PqFl.LeaseOwnership
open PqFl.SubmissionTracking PqFl.PendingSubmissions

variable {F : Type} {d : Deployment F} {s s' : Server F} {a : Action F}
variable {scopes : List (String × String)}

/-- The request names the active job, and its lease has not been spent and has not run out. -/
def goodLease (x : StateStore) (q : SubmitWeightsRequest) (now : ℕ) : Bool :=
  (activeJob x q).all (fun j => q.jobId == j.jobId) && liveLease x q now

def acceptsGood (scopes : List (String × String)) (s : Server F) : Action F → Bool
  | .submitWeights q _ => scopes.contains (requestScope q)
  | .proceed o => (submitting s).all (fun c =>
      !atAccept c.point || goodLease s.world.store c.q o.now)
  | _ => true

def holds : SubmitPoint F → Bool
  | .keyVersion _ _ => true
  | .record _ _ _ => true
  | .publish _ _ _ => true
  | .accept _ _ => true
  | .advance _ _ => true
  | .respond response _ => response.accepted
  | _ => false

def AcceptedAnswer (s : Server F) (t m : String) (r : ℤ) (x : String) (n : ℕ) : Prop :=
  ∃ response, .answered n t m x r response ∈ s.history ∧ response.accepted = true

structure IsRequest (c : Submitting F) (t m : String) (r : ℤ) (x : String) (n : ℕ) : Prop where
  scope : requestScope c.q = (t, m)
  round : c.q.roundIndex = r
  client : c.q.clientId = x
  serial : c.serial = n

def Holding (s : Server F) (t m : String) (r : ℤ) (x : String) (n : ℕ) : Prop :=
  ∃ c, submitting s = some c ∧ holds c.point = true ∧ IsRequest c t m r x n

def Counts (s : Server F) (t m : String) (r : ℤ) (x : String) (n : ℕ) : Prop :=
  AcceptedAnswer s t m r x n ∨ Holding s t m r x n

/-- The round has a vector of this client which came with this request. -/
def InRound (s : Server F) (t m : String) (r : ℤ) (x : String) (n : ℕ) : Prop :=
  x ∈ submissions s.world.buffer (roundKey t m r) ∧
    ∃ o, s.origin (roundKey t m r) x = some o ∧ o.serial = n

theorem afterAttempt_holds (cfg : Config F) (job : Option PersistedTrainingJobRecord)
    (result : AggregationAttemptResult) : holds (afterAttempt cfg job result) = result.accepted := by
  rcases afterAttempt_cases cfg job result with ⟨j, -, hr, h⟩ | ⟨-, hr, h⟩ | ⟨hr, h⟩
  · rw [h, hr]
    rfl
  · rw [h, hr]
    rfl
  · rw [h, hr]
    rfl

/-- An aggregate and the answers to its submissions. -/
structure Accounted (s : Server F) (t m : String) (r : ℤ) (contribs : List (String × Option Origin))
    (trigger : ℕ) : Prop where
  completed : roundKey t m r ∈ s.world.buffer.completedRounds
  once : (contribs.map (·.1)).Nodup
  known : ∀ pair ∈ contribs, pair.2.isSome = true
  counts : ∀ x n, (∃ o, (x, some o) ∈ contribs ∧ o.serial = n) ↔ Counts s t m r x n
  triggered : ∃ x, Counts s t m r x trigger

/-- The numbers of answers are those of earlier requests, each answered once. -/
structure Numbered (s : Server F) : Prop where
  served : ∀ n t m x r response, .answered n t m x r response ∈ s.history → n < s.served
  current : ∀ c, submitting s = some c → c.serial < s.served ∧
    ∀ n t m x r response, .answered n t m x r response ∈ s.history → n ≠ c.serial
  answeredOnce : ∀ n t m x r response t' m' x' r' response',
    .answered n t m x r response ∈ s.history → .answered n t' m' x' r' response' ∈ s.history →
    response.accepted = response'.accepted

structure Faithful (scopes : List (String × String)) (s : Server F) : Prop where
  order : InOrder s
  scheduled : InFlight Scheduled s
  reserved : Reserved s
  within : ∀ c, submitting s = some c → requestScope c.q ∈ scopes
  known : ∀ key x, x ∈ submissions s.world.buffer key → (s.origin key x).isSome = true
  pending : ∀ t m, (t, m) ∈ scopes → ∀ r, roundKey t m r ∉ s.world.buffer.completedRounds →
    ∀ x n, InRound s t m r x n ↔ Counts s t m r x n
  aggregated : ∀ t m r contribs trigger job, .aggregated t m r contribs trigger job ∈ s.history →
    (t, m) ∈ scopes ∧ Accounted s t m r contribs trigger
  numbered : Numbered s

theorem initial_faithful (d : Deployment F) (scopes : List (String × String)) (start : Start) :
    Faithful scopes (initial d start) where
  order := initial_inOrder d start
  scheduled := by
    intro c job hc
    cases hc
  reserved := initial_reserved d start
  within := by
    intro c hc
    cases hc
  known := by
    intro key x hx
    cases hx
  pending := by
    intro t m _ r _ x n
    constructor
    · rintro ⟨hx, -⟩
      cases hx
    · rintro (⟨response, he, -⟩ | ⟨c, hc, -⟩)
      · cases he
      · cases hc
  aggregated := by
    intro t m r contribs trigger job he
    cases he
  numbered := by
    refine ⟨?_, ?_, ?_⟩
    · intro n t m x r response he
      cases he
    · intro c hc
      cases hc
    · intro n t m x r response t' m' x' r' response' he
      cases he

theorem acceptance_of_goodLease (h : InFlight Scheduled s) {c : Submitting F}
    (hc : submitting s = some c) {job : PersistedTrainingJobRecord}
    {result : AggregationAttemptResult} (hpoint : c.point = .accept job result) {now : ℕ}
    (hgood : goodLease s.world.store c.q now = true) :
    (acceptance s.world.store c.q now).value = .ok () := by
  obtain ⟨hactive, hchecked⟩ := h c (some job) hc (by rw [hpoint]; rfl) rfl
  obtain ⟨active, hfound⟩ := Option.isSome_iff_exists.mp hactive
  simp only [goodLease, hfound, Option.all_some, Bool.and_eq_true, beq_iff_eq] at hgood
  exact acceptance_of_liveLease hfound hgood.1 (hchecked (by rw [hpoint]; rfl)) hgood.2

theorem accept_succeeds (h : Faithful scopes s) {c : Submitting F} {o : Oracle F}
    (ha : acceptsGood scopes s (.proceed o) = true) (hc : submitting s = some c)
    {job : PersistedTrainingJobRecord} {result : AggregationAttemptResult}
    (hpoint : c.point = .accept job result) : (acceptance s.world.store c.q o.now).value = .ok () := by
  have hgood : goodLease s.world.store c.q o.now = true := by
    simpa [acceptsGood, hc, hpoint, atAccept] using ha
  exact acceptance_of_goodLease h.scheduled hc hpoint hgood

theorem counts_submitting {c : Submitting F} (hc : submitting s = some c) {t m : String} {r : ℤ}
    {x : String} {n : ℕ} : Counts s t m r x n ↔
      AcceptedAnswer s t m r x n ∨ (holds c.point = true ∧ IsRequest c t m r x n) := by
  constructor
  · rintro (h | ⟨c', hc', hholds, hreq⟩)
    · exact .inl h
    · obtain rfl := Option.some.inj (hc.symm.trans hc')
      exact .inr ⟨hholds, hreq⟩
  · rintro (h | ⟨hholds, hreq⟩)
    · exact .inl h
    · exact .inr ⟨c, hc, hholds, hreq⟩

theorem counts_same (hanswers : ∀ n t m x r response, .answered n t m x r response ∈ s'.history ↔
      .answered n t m x r response ∈ s.history) (hsubmit : submitting s' = submitting s)
    {t m : String} {r : ℤ} {x : String} {n : ℕ} : Counts s' t m r x n ↔ Counts s t m r x n := by
  simp only [Counts, AcceptedAnswer, Holding, hanswers, hsubmit]

theorem counts_start {q : SubmitWeightsRequest} {peer : Peer} (hidle : s.federated = none)
    {t m : String} {r : ℤ} {x : String} {n : ℕ} :
    Counts (startSubmit s q peer) t m r x n ↔ Counts s t m r x n := by
  constructor
  · rintro (⟨response, he, haccepted⟩ | ⟨c, hc, hholds, -⟩)
    · rcases List.mem_append.mp he with hold | hnew
      · exact .inl ⟨response, hold, haccepted⟩
      · split at hnew
        · cases List.mem_singleton.mp hnew
        · cases hnew
    · rw [submitting_startSubmit] at hc
      obtain rfl := Option.some.inj hc
      rcases startSubmitWeights_cases s.world.registry q peer with hp | ⟨message, hp⟩
      · rw [hp] at hholds
        cases hholds
      · rw [hp] at hholds
        cases hholds
  · rintro (⟨response, he, haccepted⟩ | ⟨c, hc, -⟩)
    · exact .inl ⟨response, List.mem_append_left _ he, haccepted⟩
    · rw [submitting_none hidle] at hc
      cases hc

theorem not_isRequest {c : Submitting F} {t m : String} {r : ℤ} {x : String} {n : ℕ}
    (hkey : roundKey t m r ≠ requestKey c.q) : ¬ IsRequest c t m r x n := by
  rintro ⟨hscope, rfl, -, -⟩
  obtain ⟨rfl, rfl⟩ := Prod.mk.inj hscope
  exact hkey rfl

theorem isRequest_iff (hsep : Separated scopes) {c : Submitting F} (hq : requestScope c.q ∈ scopes)
    {t m : String} (htm : (t, m) ∈ scopes) {r : ℤ} {x : String} {n : ℕ} :
    IsRequest c t m r x n ↔ (roundKey t m r = requestKey c.q ∧ x = c.q.clientId) ∧ c.serial = n := by
  constructor
  · rintro ⟨hscope, rfl, rfl, hserial⟩
    obtain ⟨rfl, rfl⟩ := Prod.mk.inj hscope
    exact ⟨⟨rfl, rfl⟩, hserial⟩
  · rintro ⟨⟨hkey, rfl⟩, hserial⟩
    obtain ⟨hscope, rfl⟩ := requestKey_inj hsep hq htm hkey
    exact ⟨hscope, rfl, rfl, hserial⟩

theorem originAfter_isSome {q : SubmitWeightsRequest} {n : ℕ} {p : SubmitPoint F} {key x : String}
    (h : (s.origin key x).isSome = true) : (originAfter s q n p key x).isSome = true := by
  cases p with
  | add job weights =>
    simp only [originAfter]
    split
    · rfl
    · exact h
  | _ => exact h

theorem pending_same (h : Faithful scopes s)
    (hweights : s'.world.buffer.roundWeights = s.world.buffer.roundWeights)
    (hcompleted : s.world.buffer.completedRounds ⊆ s'.world.buffer.completedRounds)
    (horigin : s'.origin = s.origin)
    (hcounts : ∀ t m r x n, Counts s' t m r x n ↔ Counts s t m r x n) :
    ∀ t m, (t, m) ∈ scopes → ∀ r, roundKey t m r ∉ s'.world.buffer.completedRounds →
      ∀ x n, InRound s' t m r x n ↔ Counts s' t m r x n := by
  intro t m htm r hopen x n
  rw [hcounts, ← h.pending t m htm r (fun hc => hopen (hcompleted hc)) x n]
  simp only [InRound, submissions, hweights, horigin]

theorem moved_answers (hsame : BufferSame s s') (n : ℕ) (t m x : String) (r : ℤ)
    (response : SubmitWeightsResponse) : .answered n t m x r response ∈ s'.history ↔
      .answered n t m x r response ∈ s.history := by
  obtain ⟨es, hes, hrestored⟩ := hsame.history
  rw [hes, List.mem_append]
  constructor
  · rintro (hold | hnew)
    · exact hold
    · obtain ⟨t', m', v, w, he⟩ := hrestored _ hnew
      cases he
  · exact .inl

theorem Accounted.same {t m : String} {r : ℤ} {contribs : List (String × Option Origin)} {trigger : ℕ}
    (h : Accounted s t m r contribs trigger)
    (hcompleted : s.world.buffer.completedRounds ⊆ s'.world.buffer.completedRounds)
    (hcounts : ∀ x n, Counts s' t m r x n ↔ Counts s t m r x n) :
    Accounted s' t m r contribs trigger where
  completed := hcompleted h.completed
  once := h.once
  known := h.known
  counts x n := (h.counts x n).trans (hcounts x n).symm
  triggered := by
    obtain ⟨x, hx⟩ := h.triggered
    exact ⟨x, (hcounts x trigger).mpr hx⟩

/-- The vectors of an aggregate are those of the accepted requests, each once. -/
structure ExactlyAccepted (s : Server F) (t m : String) (r : ℤ)
    (contribs : List (String × Option Origin)) : Prop where
  once : (contribs.map (·.1)).Nodup
  clients : ∀ x, x ∈ contribs.map (·.1) ↔ ∃ n, AcceptedAnswer s t m r x n
  requests : ∀ x n, (∃ o, (x, some o) ∈ contribs ∧ o.serial = n) ↔ AcceptedAnswer s t m r x n

theorem counts_idle (hidle : submitting s = none) {t m : String} {r : ℤ} {x : String} {n : ℕ} :
    Counts s t m r x n ↔ AcceptedAnswer s t m r x n := by
  constructor
  · rintro (h | ⟨c, hc, -⟩)
    · exact h
    · rw [hidle] at hc
      cases hc
  · exact .inl

theorem Accounted.exactlyAccepted {t m : String} {r : ℤ} {contribs : List (String × Option Origin)}
    {trigger : ℕ} (h : Accounted s t m r contribs trigger) (hidle : submitting s = none) :
    ExactlyAccepted s t m r contribs where
  once := h.once
  clients x := by
    constructor
    · intro hx
      obtain ⟨⟨y, origin⟩, hmem, rfl⟩ := List.mem_map.mp hx
      obtain ⟨o, rfl⟩ := Option.isSome_iff_exists.mp (h.known _ hmem)
      exact ⟨o.serial, (counts_idle hidle).mp ((h.counts y o.serial).mp ⟨o, hmem, rfl⟩)⟩
    · rintro ⟨n, hn⟩
      obtain ⟨o, hmem, -⟩ := (h.counts x n).mpr ((counts_idle hidle).mpr hn)
      exact List.mem_map.mpr ⟨_, hmem, rfl⟩
  requests x n := (h.counts x n).trans (counts_idle hidle)

variable [FloatArith F]

theorem holds_next {w : World F} {q : SubmitWeightsRequest} {peer : Peer} {o : Oracle F}
    {p p' : SubmitPoint F} (h : (stepSubmitWeights d w q peer o p).2 = .inl p')
    (hadd : stage p ≠ 8) (haccept : ∀ job result, p = .accept job result →
      (acceptance w.store q o.now).value = .ok ()) : holds p' = holds p := by
  cases p with
  | modelVersion =>
    obtain rfl := Sum.inl.inj h
    split <;> rfl
  | activeJob current =>
    simp only [stepSubmitWeights] at h
    split at h
    · obtain rfl := Sum.inl.inj h
      rfl
    · obtain rfl := Sum.inl.inj h
      rfl
  | validate current job =>
    obtain rfl := Sum.inl.inj h
    split <;> rfl
  | roundCheck current job =>
    obtain rfl := Sum.inl.inj h
    split <;> rfl
  | duplicateCheck current job =>
    obtain rfl := Sum.inl.inj h
    split <;> rfl
  | decrypt job =>
    simp only [stepSubmitWeights] at h
    split at h
    · obtain rfl := Sum.inl.inj h
      rfl
    · obtain rfl := Sum.inl.inj h
      rfl
  | add job weights => exact absurd rfl hadd
  | publish job p modelVersion =>
    obtain rfl := Sum.inl.inj h
    exact afterAttempt_holds _ _ _
  | accept job result =>
    have hok := haccept job result rfl
    rw [acceptance] at hok
    simp only [stepSubmitWeights, hok] at h
    obtain rfl := Sum.inl.inj h
    split <;> rfl
  | respond response countClients => cases h
  | _ =>
    obtain rfl := Sum.inl.inj h
    rfl

theorem answered_proceed {c : Submitting F} {o : Oracle F} {n : ℕ} {t m x : String} {r : ℤ}
    {response : SubmitWeightsResponse}
    (h : .answered n t m x r response ∈ (proceedSubmit d s c.q c.peer c.serial o c.point).history) :
    .answered n t m x r response ∈ s.history ∨ (IsRequest c t m r x n ∧
      ∃ text countClients, c.point = .respond text countClients ∧
        response.accepted = text.accepted) := by
  rcases List.mem_append.mp h with hold | hnew
  · exact .inl hold
  · have hobserved := observe_observed hnew
    generalize hpoint : c.point = p at hobserved
    cases hobserved with
    | answered hverdict => exact .inr ⟨⟨rfl, rfl, rfl, rfl⟩, _, _, rfl, hverdict⟩

theorem counts_next {c : Submitting F} {o : Oracle F} {p : SubmitPoint F}
    (hnext : (stepSubmitWeights d s.world c.q c.peer o c.point).2 = .inl p) {t m : String} {r : ℤ}
    {x : String} {n : ℕ} :
    Counts (proceedSubmit d s c.q c.peer c.serial o c.point) t m r x n ↔
      AcceptedAnswer s t m r x n ∨ (holds p = true ∧ IsRequest c t m r x n) := by
  have hafter := submitting_proceed.mpr ⟨p, hnext, rfl⟩
  rw [counts_submitting hafter]
  have hanswers : AcceptedAnswer (proceedSubmit d s c.q c.peer c.serial o c.point) t m r x n ↔
      AcceptedAnswer s t m r x n := by
    constructor
    · rintro ⟨response, he, haccepted⟩
      rcases answered_proceed he with hold | ⟨-, text, countClients, hpoint, -⟩
      · exact ⟨response, hold, haccepted⟩
      · rw [hpoint] at hnext
        cases hnext
    · rintro ⟨response, he, haccepted⟩
      exact ⟨response, List.mem_append_left _ he, haccepted⟩
  have hreq : IsRequest { c with point := p } t m r x n ↔ IsRequest c t m r x n :=
    ⟨fun h => ⟨h.1, h.2, h.3, h.4⟩, fun h => ⟨h.1, h.2, h.3, h.4⟩⟩
  rw [hanswers, hreq]

theorem counts_respond {c : Submitting F} {o : Oracle F} (hc : submitting s = some c)
    {text : SubmitWeightsResponse} {countClients : Bool}
    (hpoint : c.point = .respond text countClients) {t m : String} {r : ℤ} {x : String} {n : ℕ} :
    Counts (proceedSubmit d s c.q c.peer c.serial o c.point) t m r x n ↔ Counts s t m r x n := by
  constructor
  · rintro (⟨response, he, haccepted⟩ | ⟨c', hc', -⟩)
    · rcases answered_proceed he with hold | ⟨hreq, text', countClients', hpoint', hverdict⟩
      · exact .inl ⟨response, hold, haccepted⟩
      · refine .inr ⟨c, hc, ?_, hreq⟩
        rw [hpoint', holds, ← hverdict, haccepted]
    · obtain ⟨p, hnext, -⟩ := submitting_proceed.mp hc'
      rw [hpoint] at hnext
      cases hnext
  · rintro (⟨response, he, haccepted⟩ | ⟨c', hc', hholds, hreq⟩)
    · exact .inl ⟨response, List.mem_append_left _ he, haccepted⟩
    · obtain rfl := Option.some.inj (hc.symm.trans hc')
      obtain ⟨hscope, rfl, rfl, rfl⟩ := hreq
      obtain ⟨rfl, rfl⟩ := Prod.mk.inj hscope
      rw [hpoint] at hholds ⊢
      exact .inl ⟨_, List.mem_append_right _ (List.mem_singleton.mpr rfl), hholds⟩

theorem counts_proceed (h : Faithful scopes s) {c : Submitting F} {o : Oracle F}
    (ha : acceptsGood scopes s (.proceed o) = true) (hc : submitting s = some c)
    (hadd : stage c.point ≠ 8) {t m : String} {r : ℤ} {x : String} {n : ℕ} :
    Counts (proceedSubmit d s c.q c.peer c.serial o c.point) t m r x n ↔ Counts s t m r x n := by
  by_cases hrespond : stage c.point = 14
  · obtain ⟨text, countClients, hpoint⟩ : ∃ text countClients,
        c.point = .respond text countClients := by
      cases hp : c.point <;> simp_all [stage]
    exact counts_respond hc hpoint
  · obtain ⟨p, hnext⟩ := next_of_stage d s.world c.q c.peer o
      hrespond
    rw [counts_next hnext, counts_submitting hc, holds_next hnext hadd
      (fun job result hpoint => accept_succeeds h ha hc hpoint)]

theorem add_holds (d : Deployment F) {w : World F} {q : SubmitWeightsRequest} (peer : Peer)
    (o : Oracle F) (job : Option PersistedTrainingJobRecord) (weights : List F)
    (hopen : requestKey q ∉ w.buffer.completedRounds) :
    ∃ p, (stepSubmitWeights d w q peer o (.add job weights)).2 = .inl p ∧
      (q.clientId ∈ submissions (stepSubmitWeights d w q peer o (.add job weights)).1.buffer
        (requestKey q) ↔ holds p = true) ∧
      ∀ key x, (key = requestKey q → x ≠ q.clientId) →
        (x ∈ submissions (stepSubmitWeights d w q peer o (.add job weights)).1.buffer key ↔
          x ∈ submissions w.buffer key) := by
  have hadded := addWeight_added d.primitives d.config.toAggregationConfig w.crypto w.files w.buffer
    (submission d.config q job weights) o.draw
  simp only [stepSubmitWeights]
  generalize addWeight d.primitives d.config.toAggregationConfig w.crypto w.files w.buffer
    (submission d.config q job weights) o.draw = added at hadded
  obtain ⟨b, files, attempt⟩ := added
  refine ⟨_, rfl, ?_, ?_⟩
  · cases hadded with
    | late hlate _ => exact absurd hlate hopen
    | waiting _ _ hown hout =>
      show q.clientId ∈ submissions b (requestKey q) ↔ _
      have hown' : submissions b (requestKey q) = _ := hown
      rw [afterAttempt_holds, hout.1, hown', AList.mem_insert]
      exact iff_of_true (.inl rfl) rfl
    | refused _ _ hown _ hout =>
      show q.clientId ∈ submissions b (requestKey q) ↔ _
      have hown' : submissions b (requestKey q) = _ := hown
      rw [afterAttempt_holds, hout, hown', AList.mem_erase]
      simp [submission]
    | prepared _ _ hown _ =>
      show q.clientId ∈ submissions b (requestKey q) ↔ _
      have hown' : submissions b (requestKey q) = _ := hown
      rw [hown', AList.mem_insert]
      exact iff_of_true (.inl rfl) rfl
  · intro key x hother
    by_cases hkey : key = requestKey q
    · subst hkey
      have hne := hother rfl
      cases hadded with
      | late hlate _ => exact absurd hlate hopen
      | waiting _ _ hown _ =>
        have hown' : submissions b (requestKey q) = _ := hown
        rw [hown', AList.mem_insert]
        exact or_iff_right hne
      | refused _ _ hown _ _ =>
        have hown' : submissions b (requestKey q) = _ := hown
        rw [hown', AList.mem_erase]
        exact and_iff_right hne
      | prepared _ _ hown _ =>
        have hown' : submissions b (requestKey q) = _ := hown
        rw [hown', AList.mem_insert]
        exact or_iff_right hne
    · have hsame := hadded.sameBut.others key hkey
      show x ∈ submissions b key ↔ _
      rw [hsame]

theorem add_pending (hsep : Separated scopes) (h : Faithful scopes s) {c : Submitting F}
    {o : Oracle F} (hc : submitting s = some c) (hadd : stage c.point = 8) {t m : String}
    (htm : (t, m) ∈ scopes) {r : ℤ} (hopen : roundKey t m r ∉ s.world.buffer.completedRounds)
    {x : String} {n : ℕ} :
    InRound (proceedSubmit d s c.q c.peer c.serial o c.point) t m r x n ↔
      Counts (proceedSubmit d s c.q c.peer c.serial o c.point) t m r x n := by
  obtain ⟨job, weights, hpoint⟩ : ∃ job weights, c.point = .add job weights := by
    cases hp : c.point <;> simp_all [stage]
  have hreserved := h.reserved.openRound c hc (by omega) (by omega)
  have habsent := h.reserved.absent c hc (by omega) (by omega)
  have hbefore := h.pending t m htm r hopen x n
  have hnotyet : holds c.point = false := by rw [hpoint]; rfl
  rw [counts_submitting hc, hnotyet] at hbefore
  simp only [Bool.false_eq_true, false_and, or_false] at hbefore
  obtain ⟨p, hnext, hown, hothers⟩ := add_holds d c.peer o job weights hreserved
  rw [← hpoint] at hnext hown hothers
  rw [counts_next hnext, isRequest_iff hsep (h.within c hc) htm]
  by_cases hmine : roundKey t m r = requestKey c.q ∧ x = c.q.clientId
  · obtain ⟨hkey, rfl⟩ := hmine
    have hnot : ¬ AcceptedAnswer s t m r c.q.clientId n := by
      intro hanswer
      obtain ⟨hmem, -⟩ := hbefore.mpr hanswer
      rw [hkey, ← AList.lookup_isSome, habsent] at hmem
      cases hmem
    have horigin : (proceedSubmit d s c.q c.peer c.serial o c.point).origin (requestKey c.q)
        c.q.clientId = some ⟨c.serial, job.bind (fun _ => (namedLease s.world.store c.q).map
          (·.jobId))⟩ := by
      rw [hpoint]
      simp [proceedSubmit, originAfter]
    constructor
    · rintro ⟨hmem, origin, horigin', rfl⟩
      rw [hkey] at hmem horigin'
      obtain rfl := Option.some.inj (horigin.symm.trans horigin')
      exact .inr ⟨hown.mp hmem, ⟨hkey, rfl⟩, rfl⟩
    · rintro (hanswer | ⟨hholds, -, rfl⟩)
      · exact absurd hanswer hnot
      · unfold InRound
        rw [hkey]
        exact ⟨hown.mpr hholds, _, horigin, rfl⟩
  · have hmem : x ∈ submissions (proceedSubmit d s c.q c.peer c.serial o c.point).world.buffer
        (roundKey t m r) ↔ x ∈ submissions s.world.buffer (roundKey t m r) :=
      hothers _ x (fun hkey hx => hmine ⟨hkey, hx⟩)
    have horigin : (proceedSubmit d s c.q c.peer c.serial o c.point).origin (roundKey t m r) x =
        s.origin (roundKey t m r) x := by
      rw [hpoint]
      simp only [proceedSubmit, originAfter, if_neg hmine]
    have hsame : InRound (proceedSubmit d s c.q c.peer c.serial o c.point) t m r x n ↔
        InRound s t m r x n := by
      unfold InRound
      rw [hmem, horigin]
    rw [hsame, hbefore]
    simp [hmine]

theorem add_counts (h : Faithful scopes s) {c : Submitting F} {o : Oracle F}
    (hc : submitting s = some c) (hadd : stage c.point = 8) {t m : String} {r : ℤ}
    (hcompleted : roundKey t m r ∈ s.world.buffer.completedRounds) {x : String} {n : ℕ} :
    Counts (proceedSubmit d s c.q c.peer c.serial o c.point) t m r x n ↔ Counts s t m r x n := by
  have hopen := h.reserved.openRound c hc (by omega) (by omega)
  have hkey : roundKey t m r ≠ requestKey c.q := fun hkey => hopen (hkey ▸ hcompleted)
  obtain ⟨p, hnext⟩ := next_of_stage d s.world c.q c.peer o
    (show stage c.point ≠ 14 by omega)
  have hnot := not_isRequest (x := x) (n := n) hkey
  rw [counts_next hnext, counts_submitting hc]
  simp [hnot]

theorem step_known (h : Faithful scopes s) (hs : step d s a = some s') :
    ∀ key x, x ∈ submissions s'.world.buffer key → (s'.origin key x).isSome = true := by
  intro key x hx
  cases step_jobStep hs with
  | moved _ _ hsame _ _ =>
    rw [submissions, hsame.roundWeights] at hx
    rw [hsame.origin]
    exact h.known key x hx
  | create _ => exact h.known key x hx
  | submit _ => exact h.known key x hx
  | @proceed c o hc =>
    rcases stepSubmitWeights_buffer (d := d) s.world c.q c.peer o c.point with
      ⟨job, weights, hp⟩ | ⟨job, pr, v, hp⟩ | hbuffer
    · rw [hp] at hx ⊢
      have hadded := addWeight_added d.primitives d.config.toAggregationConfig s.world.crypto
        s.world.files s.world.buffer (submission d.config c.q job weights) o.draw
      by_cases hmine : key = requestKey c.q ∧ x = c.q.clientId
      · simp [proceedSubmit, originAfter, hmine]
      · rcases hadded.mem_submissions hx with hnew | hold
        · exact absurd hnew hmine
        · simp only [proceedSubmit, originAfter, if_neg hmine]
          exact h.known key x hold
    · rw [hp] at hx ⊢
      exact h.known key x hx
    · have hx' : x ∈ submissions s.world.buffer key := hbuffer ▸ hx
      exact originAfter_isSome (h.known key x hx')
  | restart hrestart =>
    rw [submissions, (restart_empty hrestart).1] at hx
    cases hx

theorem step_pending (hsep : Separated scopes) (h : Faithful scopes s)
    (ha : acceptsGood scopes s a = true) (hs : step d s a = some s') :
    ∀ t m, (t, m) ∈ scopes → ∀ r, roundKey t m r ∉ s'.world.buffer.completedRounds →
      ∀ x n, InRound s' t m r x n ↔ Counts s' t m r x n := by
  cases step_jobStep hs with
  | moved _ _ hsame _ hsubmit =>
    exact pending_same h hsame.roundWeights (by rw [hsame.completedRounds]) hsame.origin
      (fun _ _ _ _ _ => counts_same (fun _ _ _ _ _ _ => moved_answers hsame _ _ _ _ _ _) hsubmit)
  | create _ => exact pending_same h rfl (Finset.Subset.refl _) rfl (fun _ _ _ _ _ => Iff.rfl)
  | submit hidle =>
    exact pending_same h rfl (Finset.Subset.refl _) rfl (fun _ _ _ _ _ => counts_start hidle)
  | @proceed c o hc =>
    by_cases hadd : stage c.point = 8
    · intro t m htm r hopen x n
      apply add_pending hsep h hc hadd htm
      have hcompleted : (proceedSubmit d s c.q c.peer c.serial o c.point).world.buffer.completedRounds =
          s.world.buffer.completedRounds := completedRounds_of_stage (by omega)
      rwa [hcompleted] at hopen
    · apply pending_same h _ _ _ (fun t m r x n => counts_proceed h ha hc hadd)
      · rcases stepSubmitWeights_buffer (d := d) s.world c.q c.peer o c.point with
          ⟨job, weights, hp⟩ | ⟨job, pr, v, hp⟩ | hbuffer
        · exact absurd (by rw [hp]; rfl) hadd
        · rw [hp]
          rfl
        · exact congrArg (·.roundWeights) hbuffer
      · rcases stepSubmitWeights_buffer (d := d) s.world c.q c.peer o c.point with
          ⟨job, weights, hp⟩ | ⟨job, pr, v, hp⟩ | hbuffer
        · exact absurd (by rw [hp]; rfl) hadd
        · rw [hp]
          exact Finset.subset_insert _ _
        · exact (congrArg (·.completedRounds) hbuffer).symm.subset
      · cases hp : c.point with
        | add job weights => exact absurd (by rw [hp]; rfl) hadd
        | _ => rfl
  | restart hrestart =>
    obtain ⟨hweights, -, hnone, hhistory, -⟩ := restart_empty hrestart
    intro t m _ r _ x n
    constructor
    · rintro ⟨hx, -⟩
      rw [submissions, hweights] at hx
      cases hx
    · rintro (⟨response, he, -⟩ | ⟨c, hc, -⟩)
      · rw [hhistory] at he
        cases he
      · rw [hnone] at hc
        cases hc

theorem publish_accounted (h : Faithful scopes s) {c : Submitting F} {o : Oracle F}
    (ha : acceptsGood scopes s (.proceed o) = true) (hc : submitting s = some c)
    {job : Option PersistedTrainingJobRecord} {pr : Prepared F} {v : ℤ}
    (hpoint : c.point = .publish job pr v) :
    Accounted (proceedSubmit d s c.q c.peer c.serial o c.point) (requestScope c.q).1
      (requestScope c.q).2 c.q.roundIndex (contributors s (requestKey c.q)) c.serial := by
  have hopen := h.reserved.openRound c hc (by simp [hpoint, stage]) (by simp [hpoint, stage])
  have hcounts := fun t m r x n => counts_proceed (d := d) (t := t) (m := m) (r := r) (x := x)
    (n := n) h ha hc (show stage c.point ≠ 8 by simp [hpoint, stage])
  have hpending : ∀ x n, InRound s (requestScope c.q).1 (requestScope c.q).2 c.q.roundIndex x n ↔
      Counts s (requestScope c.q).1 (requestScope c.q).2 c.q.roundIndex x n :=
    h.pending _ _ (h.within c hc) c.q.roundIndex hopen
  refine ⟨?_, ?_, ?_, ?_, ?_⟩
  · rw [hpoint]
    exact Finset.mem_insert_self _ _
  · rw [contributors, List.map_map]
    exact (List.map_id _).symm ▸ (submissions s.world.buffer (requestKey c.q)).nodupKeys
  · intro pair hpair
    obtain ⟨x, hx, rfl⟩ := List.mem_map.mp hpair
    exact h.known _ x hx
  · intro x n
    rw [hcounts, ← hpending]
    constructor
    · rintro ⟨origin, hmem, rfl⟩
      obtain ⟨y, hy, heq⟩ := List.mem_map.mp hmem
      obtain ⟨rfl, horigin⟩ := Prod.mk.inj heq
      exact ⟨hy, origin, horigin, rfl⟩
    · rintro ⟨hx, origin, horigin, rfl⟩
      exact ⟨origin, List.mem_map.mpr ⟨x, hx, by rw [show s.origin (requestKey c.q) x = some origin
        from horigin]⟩, rfl⟩
  · refine ⟨c.q.clientId, (hcounts _ _ _ _ _).mpr (.inr ⟨c, hc, ?_, rfl, rfl, rfl, rfl⟩)⟩
    rw [hpoint]
    rfl

theorem step_aggregated (h : Faithful scopes s) (ha : acceptsGood scopes s a = true)
    (hs : step d s a = some s') {t m : String} {r : ℤ} {contribs : List (String × Option Origin)}
    {trigger : ℕ} {job : Option String}
    (he : .aggregated t m r contribs trigger job ∈ s'.history) :
    (t, m) ∈ scopes ∧ Accounted s' t m r contribs trigger := by
  cases step_jobStep hs with
  | moved _ _ hsame _ hsubmit =>
    obtain ⟨es, hes, hrestored⟩ := hsame.history
    rw [hes] at he
    rcases List.mem_append.mp he with hold | hnew
    · obtain ⟨htm, haccounted⟩ := h.aggregated t m r contribs trigger job hold
      exact ⟨htm, haccounted.same (by rw [hsame.completedRounds])
        (fun _ _ => counts_same (fun _ _ _ _ _ _ => moved_answers hsame _ _ _ _ _ _) hsubmit)⟩
    · obtain ⟨_, _, _, _, heq⟩ := hrestored _ hnew
      cases heq
  | create _ =>
    obtain ⟨htm, haccounted⟩ := h.aggregated t m r contribs trigger job he
    exact ⟨htm, haccounted.same (Finset.Subset.refl _) (fun _ _ => Iff.rfl)⟩
  | submit hidle =>
    rcases List.mem_append.mp he with hold | hnew
    · obtain ⟨htm, haccounted⟩ := h.aggregated t m r contribs trigger job hold
      exact ⟨htm, haccounted.same (Finset.Subset.refl _) (fun _ _ => counts_start hidle)⟩
    · split at hnew
      · cases List.mem_singleton.mp hnew
      · cases hnew
  | @proceed c o hc =>
    rcases List.mem_append.mp he with hold | hnew
    · obtain ⟨htm, haccounted⟩ := h.aggregated t m r contribs trigger job hold
      refine ⟨htm, haccounted.same ?_ ?_⟩
      · rcases stepSubmitWeights_buffer (d := d) s.world c.q c.peer o c.point with
          ⟨j, weights, hp⟩ | ⟨j, pr, v, hp⟩ | hbuffer
        · exact (completedRounds_of_stage (by simp [hp, stage])).symm.subset
        · rw [hp]
          exact Finset.subset_insert _ _
        · exact (congrArg (·.completedRounds) hbuffer).symm.subset
      · intro x n
        by_cases hadd : stage c.point = 8
        · exact add_counts h hc hadd haccounted.completed
        · exact counts_proceed h ha hc hadd
    · have hobserved := observe_observed hnew
      generalize hpoint : c.point = p at hobserved
      cases hobserved with
      | aggregated => exact ⟨h.within c hc, hpoint ▸ publish_accounted h ha hc hpoint⟩
  | restart hrestart =>
    rw [(restart_empty hrestart).2.2.2.1] at he
    cases he

theorem step_numbered (h : Numbered s) (hs : step d s a = some s') : Numbered s' := by
  cases step_jobStep hs with
  | moved _ _ hsame hserved hsubmit =>
    have hanswers := moved_answers hsame
    refine ⟨?_, ?_, ?_⟩
    · intro n t m x r response he
      rw [hserved]
      exact h.served n t m x r response ((hanswers _ _ _ _ _ _).mp he)
    · intro c hc
      rw [hsubmit] at hc
      rw [hserved]
      obtain ⟨hlt, hne⟩ := h.current c hc
      exact ⟨hlt, fun n t m x r response he => hne n t m x r response
        ((hanswers _ _ _ _ _ _).mp he)⟩
    · intro n t m x r response t' m' x' r' response' he he'
      exact h.answeredOnce _ _ _ _ _ _ _ _ _ _ _ ((hanswers _ _ _ _ _ _).mp he)
        ((hanswers _ _ _ _ _ _).mp he')
  | create _ => exact ⟨h.served, h.current, h.answeredOnce⟩
  | @submit q peer hidle =>
    have hold : ∀ {n t m x r response}, .answered n t m x r response ∈ (startSubmit s q peer).history →
        .answered n t m x r response ∈ s.history := by
      intro n t m x r response he
      rcases List.mem_append.mp he with hold | hnew
      · exact hold
      · split at hnew
        · cases List.mem_singleton.mp hnew
        · cases hnew
    refine ⟨?_, ?_, ?_⟩
    · intro n t m x r response he
      exact (h.served n t m x r response (hold he)).trans (Nat.lt_succ_self _)
    · intro c hc
      rw [submitting_startSubmit] at hc
      obtain rfl := Option.some.inj hc
      exact ⟨Nat.lt_succ_self _, fun n t m x r response he =>
        (h.served n t m x r response (hold he)).ne⟩
    · intro n t m x r response t' m' x' r' response' he he'
      exact h.answeredOnce _ _ _ _ _ _ _ _ _ _ _ (hold he) (hold he')
  | @proceed c o hc =>
    obtain ⟨hlt, hne⟩ := h.current c hc
    refine ⟨?_, ?_, ?_⟩
    · intro n t m x r response he
      rcases answered_proceed he with hold | ⟨hreq, -⟩
      · exact h.served n t m x r response hold
      · exact hreq.serial ▸ hlt
    · intro c' hc'
      obtain ⟨p, hnext, rfl⟩ := submitting_proceed.mp hc'
      refine ⟨hlt, fun n t m x r response he => ?_⟩
      rcases answered_proceed he with hold | ⟨-, text, countClients, hpoint, -⟩
      · exact hne n t m x r response hold
      · rw [hpoint] at hnext
        cases hnext
    · intro n t m x r response t' m' x' r' response' he he'
      rcases answered_proceed he with hold | ⟨hreq, text, countClients, hpoint, hverdict⟩
      · rcases answered_proceed he' with hold' | ⟨hreq', -⟩
        · exact h.answeredOnce _ _ _ _ _ _ _ _ _ _ _ hold hold'
        · exact absurd hreq'.serial.symm (hne _ _ _ _ _ _ hold)
      · rcases answered_proceed he' with hold' | ⟨-, text', countClients', hpoint', hverdict'⟩
        · exact absurd hreq.serial.symm (hne _ _ _ _ _ _ hold')
        · rw [hpoint] at hpoint'
          obtain ⟨rfl, -⟩ := SubmitPoint.respond.inj hpoint'
          rw [hverdict, hverdict']
  | restart hrestart =>
    obtain ⟨-, -, hnone, hhistory, -⟩ := restart_empty hrestart
    refine ⟨?_, ?_, ?_⟩
    · intro n t m x r response he
      rw [hhistory] at he
      cases he
    · intro c hc
      rw [hnone] at hc
      cases hc
    · intro n t m x r response t' m' x' r' response' he
      rw [hhistory] at he
      cases he

theorem step_requestsWithin (h : ∀ c, submitting s = some c → requestScope c.q ∈ scopes)
    (ha : acceptsGood scopes s a = true) (hs : step d s a = some s') :
    ∀ c, submitting s' = some c → requestScope c.q ∈ scopes := by
  intro c' hc'
  cases step_jobStep hs with
  | moved _ _ _ _ hsubmit =>
    rw [hsubmit] at hc'
    exact h c' hc'
  | create _ => exact h c' hc'
  | submit _ =>
    rw [submitting_startSubmit] at hc'
    obtain rfl := Option.some.inj hc'
    simpa [acceptsGood] using ha
  | @proceed c o hc =>
    obtain ⟨p, -, rfl⟩ := submitting_proceed.mp hc'
    exact h c hc
  | restart hrestart =>
    rw [(restart_empty hrestart).2.2.1] at hc'
    cases hc'

theorem step_faithful (hsep : Separated scopes) (h : Faithful scopes s)
    (ha : acceptsGood scopes s a = true) (hs : step d s a = some s') : Faithful scopes s' where
  order := step_inOrder h.order hs
  scheduled := step_scheduled h.order h.scheduled hs
  reserved := step_reserved h.reserved hs
  within := step_requestsWithin h.within ha hs
  known := step_known h hs
  pending := step_pending hsep h ha hs
  aggregated _ _ _ _ _ _ he := step_aggregated h ha hs he
  numbered := step_numbered h.numbered hs

/-- The request of this number has no vector in the aggregate and did not trigger it. -/
def NoPart (contribs : List (String × Option Origin)) (trigger n : ℕ) : Prop :=
  n ≠ trigger ∧ ∀ x o, (x, some o) ∈ contribs → o.serial ≠ n

/-- In a run of the condition the vectors of every aggregate are exactly those
of the accepted requests of its round, and refused requests have no part. -/
theorem accepted_iff_aggregated (hsep : Separated scopes) {start : Start}
    (h : Reaches (step d) (fun s a => acceptsGood scopes s a = true) (initial d start) s)
    (hidle : submitting s = none) {t m : String} {r : ℤ} {contribs : List (String × Option Origin)}
    {trigger : ℕ} {job : Option String}
    (he : .aggregated t m r contribs trigger job ∈ s.history) :
    ExactlyAccepted s t m r contribs ∧
      ∀ n t' m' x' r' response, .answered n t' m' x' r' response ∈ s.history →
        response.accepted = false → NoPart contribs trigger n := by
  have hfaithful : Faithful scopes s := h.invariant (initial_faithful d scopes start)
    (fun _ _ _ hi ha hs => step_faithful hsep hi ha hs)
  obtain ⟨-, haccounted⟩ := hfaithful.aggregated t m r contribs trigger job he
  refine ⟨haccounted.exactlyAccepted hidle, ?_⟩
  intro n t' m' x' r' response hanswer hrefused
  have hnot : ∀ x, ¬ Counts s t m r x n := by
    intro x hcounts
    obtain ⟨response', hanswer', haccepted⟩ := (counts_idle hidle).mp hcounts
    have hsame := hfaithful.numbered.answeredOnce _ _ _ _ _ _ _ _ _ _ _ hanswer hanswer'
    rw [hrefused, haccepted] at hsame
    cases hsame
  constructor
  · rintro rfl
    obtain ⟨x, hx⟩ := haccounted.triggered
    exact hnot x hx
  · rintro x o hmem rfl
    exact hnot x ((haccounted.counts x o.serial).mp ⟨o, hmem, rfl⟩)

def aggregateOf (t m : String) : Event Binary32 → Option (ℤ × List (String × Option Origin) × ℕ)
  | .aggregated t' m' r contribs trigger _ =>
    if t' = t ∧ m' = m then some (r, contribs, trigger) else none
  | _ => none

theorem mem_of_aggregateOf {events : List (Event Binary32)} {t m : String} {r : ℤ}
    {contribs : List (String × Option Origin)} {trigger : ℕ}
    (h : (r, contribs, trigger) ∈ events.filterMap (aggregateOf t m)) :
    ∃ job, .aggregated t m r contribs trigger job ∈ events := by
  obtain ⟨e, he, hof⟩ := List.mem_filterMap.mp h
  cases e with
  | aggregated t' m' r' contribs' trigger' job =>
    simp only [aggregateOf] at hof
    split at hof
    · rename_i hscope
      obtain ⟨rfl, rfl⟩ := hscope
      obtain ⟨rfl, rfl, rfl⟩ := by simpa using hof
      exact ⟨job, he⟩
    · cases hof
  | _ => cases hof

def answerOf : Event Binary32 → Option (ℕ × Bool)
  | .answered n _ _ _ _ response => some (n, response.accepted)
  | _ => none

theorem mem_of_answerOf {events : List (Event Binary32)} {n : ℕ} {accepted : Bool}
    (h : (n, accepted) ∈ events.filterMap answerOf) :
    ∃ t m x r response, .answered n t m x r response ∈ events ∧ response.accepted = accepted := by
  obtain ⟨e, he, hof⟩ := List.mem_filterMap.mp h
  cases e with
  | answered n' t m x r response =>
    obtain ⟨rfl, rfl⟩ := by simpa [answerOf] using hof
    exact ⟨t, m, x, r, response, he, rfl⟩
  | _ => cases hof

def answeredServer : Server Binary32 :=
  (execTested (step standardDeployment) (acceptsGood [("t", "m")]) (acceptedRun ++ proceeds 2 3)
    (initial standardDeployment firstStart)).get (by decide +kernel)

theorem accepted_iff_aggregated_answeredServer :
    ExactlyAccepted answeredServer "t" "m" 1 [("a", some ⟨0, some jobAt1⟩)] ∧
      ∀ n t m x r response, .answered n t m x r response ∈ answeredServer.history →
        response.accepted = false → NoPart [("a", some ⟨0, some jobAt1⟩)] 0 n := by
  have hreach : Reaches (step standardDeployment) (fun s a => acceptsGood [("t", "m")] s a = true)
      (initial standardDeployment firstStart) answeredServer :=
    execTested_reaches _ (fun _ _ h => h) _ (Option.some_get _).symm
  have hidle : (submitting answeredServer).isNone = true := by decide +kernel
  have hevents : answeredServer.history.filterMap (aggregateOf "t" "m") =
      [(1, [("a", some ⟨0, some jobAt1⟩)], 0)] := by decide +kernel
  obtain ⟨job, he⟩ := mem_of_aggregateOf (hevents ▸ List.mem_singleton.mpr rfl)
  exact accepted_iff_aggregated (show Separated [("t", "m")] by decide) hreach
    (Option.isNone_iff_eq_none.mp hidle) he

/-- A minute passes before the lease is accepted, which lasts for half a minute. -/
def lateRun : List (Action Binary32) :=
  leasedRun ++ .submitWeights (zeroSubmission "a" 1 jobAt1 leaseAt2) site :: proceeds 12 3 ++
    proceeds 2 60000

def lateServer : Server Binary32 :=
  (exec (step standardDeployment) lateRun (initial standardDeployment firstStart)).get
    (by decide +kernel)

/-- The refused request triggered the aggregation of its own vector. -/
theorem expired_lease_aggregated :
    ¬ ∀ s, Reaches (step standardDeployment) Free (initial standardDeployment firstStart) s →
      submitting s = none → ∀ t m r contribs trigger job,
        .aggregated t m r contribs trigger job ∈ s.history →
        ExactlyAccepted s t m r contribs ∧
          ∀ n t' m' x' r' response, .answered n t' m' x' r' response ∈ s.history →
            response.accepted = false → NoPart contribs trigger n := by
  intro hall
  have hreach : Reaches (step standardDeployment) Free (initial standardDeployment firstStart)
      lateServer := exec_reaches _ (Option.some_get _).symm
  have hidle : (submitting lateServer).isNone = true := by decide +kernel
  have hevents : lateServer.history.filterMap (aggregateOf "t" "m") =
      [(1, [("a", some ⟨0, some jobAt1⟩)], 0)] := by decide +kernel
  have hanswers : lateServer.history.filterMap answerOf = [(0, false)] := by decide +kernel
  obtain ⟨job, he⟩ := mem_of_aggregateOf (hevents ▸ List.mem_singleton.mpr rfl)
  obtain ⟨t, m, x, r, response, hanswer, hrefused⟩ :=
    mem_of_answerOf (hanswers ▸ List.mem_singleton.mpr rfl)
  have hnone := (hall lateServer hreach (Option.isNone_iff_eq_none.mp hidle) _ _ _ _ _ _ he).2
    _ _ _ _ _ _ hanswer hrefused
  exact hnone.1 rfl

end PqFl.AcceptedSubmissions
