import PqFl.LatestModels
import PqFl.StreamSafety

/-!
# What a stream delivers

A stream decides by rounds what is new to its client, while models are told
apart by their versions. As long as every model that comes into a scope has a
round above the one which the client asked from, and two models of one round
are the same version, a stream that waits has sent the latest model.
-/

set_option autoImplicit false

namespace PqFl.Streams
open PqFl.Identifiers PqFl.ListUpdate PqFl.Runs PqFl.Aggregation PqFl.Buffer PqFl.Services
open PqFl.Process PqFl.Floats PqFl.Configuration PqFl.LatestModels

variable {F : Type} {d : Deployment F}

def streamScope (q : ModelRequest) : String :=
  scopeKey (normalizeTenant q.tenantId) (normalizeModel q.modelId)

theorem getLatestGlobalModel_eq (w : World F) (q : ModelRequest) :
    getLatestGlobalModel w.buffer (normalizeTenant q.tenantId) (normalizeModel q.modelId) =
      (w.buffer.latestModels.lookup (streamScope q)).getD {} := by
  unfold getLatestGlobalModel streamScope
  cases w.buffer.latestModels.lookup (scopeKey (normalizeTenant q.tenantId)
    (normalizeModel q.modelId)) with
  | none => rfl
  | some latest => rfl

def updates (p : Proceeded) : List GlobalModelUpdate := p.operations.filterMap Operation.update

/-- The object that is left after nothing was sent, or after the latest model was. -/
inductive Sends (latest : LatestModelSnapshot F) (c : StreamGlobalModelCall) (p : Proceeded) : Prop
  | nothing (hnone : updates p = [])
      (h : ∀ c', p.call = some c' → c'.request = c.request ∧ (c'.status = .finish ∨
        (c'.lastSentRound = c.lastSentRound ∧
          (c'.status = c.status ∨ (c.status = .process ∧ c'.status = .stream)))))
  | update (u : GlobalModelUpdate) (hsent : updates p = [u])
      (hround : u.roundIndex = latest.round) (hversion : u.modelVersion = latest.modelVersion)
      (h : ∀ c', p.call = some c' →
        c'.request = c.request ∧ c'.status = .stream ∧ c'.lastSentRound = latest.round)

theorem maybeDelete_some {c c' : StreamGlobalModelCall}
    (h : maybeDeleteAfterTerminalEvent c = some c') : c' = c := by
  unfold maybeDeleteAfterTerminalEvent at h
  split at h
  · exact (Option.some.inj h).symm
  · split at h
    · cases h
    · exact (Option.some.inj h).symm

theorem sends_of_maybeDelete {latest : LatestModelSnapshot F} {c c₁ : StreamGlobalModelCall}
    {p : Proceeded} (hp : p.call = maybeDeleteAfterTerminalEvent c₁) (hnone : updates p = [])
    (hrequest : c₁.request = c.request) (hstatus : c₁.status = c.status)
    (hround : c₁.lastSentRound = c.lastSentRound) : Sends latest c p := by
  refine .nothing hnone ?_
  intro c' hc'
  obtain rfl := maybeDelete_some (hp.symm.trans hc')
  exact ⟨hrequest, .inr ⟨hround, .inl hstatus⟩⟩

theorem sends_of_served {latest : LatestModelSnapshot F} {c c₁ : StreamGlobalModelCall}
    {p : Proceeded} (h : Served latest c₁ p) (hrequest : c₁.request = c.request)
    (hstatus : c₁.status = .stream) (hround : c₁.lastSentRound = c.lastSentRound)
    (hc : c.status = .stream ∨ c.status = .process) : Sends latest c p := by
  cases h with
  | waited _ =>
    refine .nothing rfl ?_
    rintro _ ⟨⟩
    exact ⟨hrequest, .inr ⟨hround, hc.imp (fun h => hstatus.trans h.symm) (fun h => ⟨h, hstatus⟩)⟩⟩
  | wrote u hu hv =>
    refine .update u rfl hu hv ?_
    rintro _ ⟨⟩
    exact ⟨hrequest, hstatus, rfl⟩
  | finished code message =>
    refine .nothing rfl ?_
    rintro _ ⟨⟩
    exact ⟨hrequest, .inl rfl⟩

/-- A model that the client can tell from what it has: its round is above the
one it asked from, and if its round was sent last, then so was its version. -/
structure Deliverable (q : ModelRequest) (sent : List GlobalModelUpdate)
    (model : LatestModelSnapshot F) : Prop where
  newer : q.lastReceivedRound < model.round
  weights : model.weights ≠ []
  sameVersion : ∀ u, sent.getLast? = some u → u.roundIndex = model.round →
    u.modelVersion = model.modelVersion

structure Delivers (server : Server F) (slot : Slot) : Prop where
  sentRound : ∀ c, slot.call = some c → c.status = .stream →
    c.lastSentRound = (slot.sent.getLast?.map (·.roundIndex)).getD (-1)
  unsent : ∀ c, slot.call = some c → c.status = .process → slot.sent = [] ∧ c.lastSentRound = -1
  shipped : ∀ c, slot.call = some c → 0 ≤ c.request.lastReceivedRound
  deliverable : slot.matched = true → ∀ c, slot.call = some c →
    ∀ model, latestModel server (streamScope c.request) = some model →
      Deliverable c.request slot.sent model

theorem listener_delivers (server : Server F) : Delivers server listener where
  sentRound c hc hstatus := by
    cases hc
    cases hstatus
  unsent c hc _ := by
    cases hc
    exact ⟨rfl, rfl⟩
  shipped c hc := by
    cases hc
    exact le_rfl
  deliverable hmatched := by cases hmatched

theorem Delivers.of_latestModel {server server' : Server F} {slot : Slot}
    (h : Delivers server slot)
    (hmodel : slot.matched = true → ∀ c, slot.call = some c →
      ∀ model, latestModel server' (streamScope c.request) = some model →
        latestModel server (streamScope c.request) = some model ∨
          Deliverable c.request slot.sent model) : Delivers server' slot where
  sentRound := h.sentRound
  unsent := h.unsent
  shipped := h.shipped
  deliverable hmatched c hcall model hlatest :=
    (hmodel hmatched c hcall model hlatest).elim (h.deliverable hmatched c hcall model) id

variable [FloatArith F]

def NothingNew (latest : LatestModelSnapshot F) (c : StreamGlobalModelCall) : Prop :=
  c.status ≠ .finish ∧ (latest.round = -1 ∨ latest.weights = [] ∨
    latest.round = c.lastSentRound ∨ latest.round ≤ c.request.lastReceivedRound)

theorem serve_sends {w : World F} {c c₁ : StreamGlobalModelCall} {o : StreamOracle} {p : Proceeded}
    {latest : LatestModelSnapshot F}
    (hlatest : getLatestGlobalModel w.buffer (normalizeTenant c.request.tenantId)
      (normalizeModel c.request.modelId) = latest)
    (hdone : c₁.doneReceived = false) (hrequest : c₁.request = c.request)
    (hstatus : c₁.status = .stream) (hround : c₁.lastSentRound = c.lastSentRound)
    (hc : c.status = .stream ∨ c.status = .process) (h : serve d w c₁ o = .ok p) :
    Sends latest c p ∧ (.setAlarm ∈ p.operations → NothingNew latest c) := by
  have hserved := serve_served hdone h
  rw [hrequest, hlatest] at hserved
  refine ⟨sends_of_served hserved hrequest hstatus hround hc, ?_⟩
  intro halarm
  cases hserved with
  | waited hwait =>
    rw [hround, hrequest] at hwait
    refine ⟨?_, hwait⟩
    rcases hc with hstream | hprocess
    · rw [hstream]
      decide
    · rw [hprocess]
      decide
  | wrote u _ _ => simp at halarm
  | finished code message => simp [finishWithStatus] at halarm

theorem resumed_sends {w : World F} {c c₁ : StreamGlobalModelCall} {o : StreamOracle}
    {p : Proceeded} {ok : Bool} {latest : LatestModelSnapshot F}
    (hlatest : getLatestGlobalModel w.buffer (normalizeTenant c.request.tenantId)
      (normalizeModel c.request.modelId) = latest)
    (hrequest : c₁.request = c.request) (hstatus : c₁.status = .stream) (hc : c.status = .stream)
    (hround : c₁.lastSentRound = c.lastSentRound)
    (h : (if !ok || c₁.doneReceived then
        .ok { call := maybeDeleteAfterTerminalEvent c₁ } else proceedStatus d w c₁ o) = .ok p) :
    Sends latest c p ∧ (.setAlarm ∈ p.operations → NothingNew latest c) := by
  split at h
  · cases h
    refine ⟨sends_of_maybeDelete rfl rfl hrequest (hstatus.trans hc.symm) hround, ?_⟩
    intro halarm
    cases halarm
  · rename_i hgoes
    simp only [Bool.or_eq_true, not_or, Bool.not_eq_true] at hgoes
    simp only [proceedStatus, hstatus] at h
    exact serve_sends hlatest hgoes.2 hrequest hstatus hround (.inl hc) h

theorem proceed_sends {w : World F} {c : StreamGlobalModelCall} {ok : Bool} {event : StreamEvent}
    {o : StreamOracle} {p : Proceeded} {rest : List StreamEvent} {latest : LatestModelSnapshot F}
    (hlatest : getLatestGlobalModel w.buffer (normalizeTenant c.request.tenantId)
      (normalizeModel c.request.modelId) = latest)
    (h : Tracked (event :: rest) c) (hp : proceed d w c ok event o = .ok p) :
    Sends latest c p ∧ (.setAlarm ∈ p.operations → NothingNew latest c) := by
  cases event with
  | start => exact absurd List.mem_cons_self h.start
  | finish =>
    cases hp
    refine ⟨sends_of_maybeDelete rfl rfl rfl rfl rfl, ?_⟩
    intro halarm
    cases halarm
  | done =>
    cases hp
    refine ⟨sends_of_maybeDelete rfl ?_ rfl rfl rfl, ?_⟩
    · unfold updates
      split <;> rfl
    · intro halarm
      simp only at halarm
      split at halarm
      · simp at halarm
      · cases halarm
  | write =>
    have hstatus := h.status_stream (.inl (h.write.mp List.mem_cons_self))
    refine resumed_sends hlatest ?_ ?_ hstatus ?_ hp
    · rfl
    · exact hstatus
    · rfl
  | alarm =>
    have hstatus := h.status_stream (.inr (h.alarm.mp List.mem_cons_self))
    refine resumed_sends hlatest ?_ ?_ hstatus ?_ hp
    · rfl
    · exact hstatus
    · rfl
  | request =>
    have hidle := h.idle_of_request
    have hstatus := h.request.mp List.mem_cons_self
    cases ok with
    | false =>
      cases hp
      exact ⟨.nothing rfl (fun _ hc' => by cases hc'), fun halarm => by cases halarm⟩
    | true =>
      rcases proceed_matched hstatus hp with ⟨code, message, rfl⟩ | ⟨p', hserved, rfl⟩
      · refine ⟨.nothing rfl ?_, by simp [finishWithStatus]⟩
        rintro _ ⟨⟩
        exact ⟨rfl, .inl rfl⟩
      · obtain ⟨hsends, hwaits⟩ := serve_sends (c := c) hlatest hidle.received rfl rfl rfl
          (.inr hstatus) hserved
        refine ⟨?_, hwaits⟩
        cases hsends with
        | nothing hnone hcall => exact .nothing hnone hcall
        | update u hsent hround hversion hcall => exact .update u hsent hround hversion hcall

/-- A client opens a stream with the round of its lease, when the model of the
scope is deliverable, and every model that a step puts into the scope of an
open stream is. -/
def PutsDeliverable (s : StreamServer F) : StreamAction F → Prop
  | .arrive _ q _ => (∃ r, q.lastReceivedRound = max 0 (r - 2)) ∧
      ∀ model, latestModel s.server (streamScope q) = some model → Deliverable q [] model
  | .serve a => ∀ scope model, putModel s.server a = some (scope, model) →
      ∀ slot ∈ s.slots, slot.matched = true → ∀ c, slot.call = some c →
        streamScope c.request = scope → Deliverable c.request slot.sent model
  | _ => True

/-- A stream waits, although its scope has a model, only when it has sent that version. -/
def WaitsUpToDate (d : Deployment F) (s : StreamServer F) : Prop :=
  ∀ slot ∈ s.slots, ∀ c event ok o p model, slot.call = some c → (event, ok) ∈ slot.held →
    proceed d s.server.world c ok event o = .ok p → .setAlarm ∈ p.operations →
    latestModel s.server (streamScope c.request) = some model →
      ∃ u, slot.sent.getLast? = some u ∧ u.modelVersion = model.modelVersion

theorem handled_delivers {server : Server F} {shutDown ok : Bool} {slot : Slot}
    {event : StreamEvent} {c : StreamGlobalModelCall} {o : StreamOracle} {p : Proceeded}
    (hsound : SlotSound shutDown slot) (h : Delivers server slot) (hheld : (event, ok) ∈ slot.held)
    (hcall : slot.call = some c) (hp : proceed d server.world c ok event o = .ok p) :
    Delivers server (handled slot event ok p) := by
  have htracked := (hsound.tracked c hcall).perm (inFlight_perm hheld)
  obtain ⟨hsends, -⟩ := proceed_sends (getLatestGlobalModel_eq server.world c.request) htracked hp
  have hsent : (handled slot event ok p).sent = slot.sent ++ updates p := rfl
  cases hsends with
  | nothing hnone hnext =>
    rw [hnone, List.append_nil] at hsent
    refine ⟨?_, ?_, ?_, ?_⟩
    · intro c' hc' hstream
      obtain ⟨-, hfinish | ⟨hround, hsame | ⟨hprocess, -⟩⟩⟩ := hnext c' hc'
      · cases hfinish.symm.trans hstream
      · rw [hround, hsent]
        exact h.sentRound c hcall (hsame.symm.trans hstream)
      · obtain ⟨hempty, hlast⟩ := h.unsent c hcall hprocess
        rw [hround, hsent, hempty, hlast]
        rfl
    · intro c' hc' hprocess
      obtain ⟨-, hfinish | ⟨hround, hsame | ⟨-, hstream⟩⟩⟩ := hnext c' hc'
      · cases hfinish.symm.trans hprocess
      · rw [hround, hsent]
        exact h.unsent c hcall (hsame.symm.trans hprocess)
      · cases hstream.symm.trans hprocess
    · intro c' hc'
      rw [(hnext c' hc').1]
      exact h.shipped c hcall
    · intro hmatched c' hc'
      rw [(hnext c' hc').1, hsent]
      exact h.deliverable hmatched c hcall
  | update u hnew hround hversion hnext =>
    rw [hnew] at hsent
    refine ⟨?_, ?_, ?_, ?_⟩
    · intro c' hc' _
      rw [(hnext c' hc').2.2, hsent, List.getLast?_concat]
      exact hround.symm
    · intro c' hc' hprocess
      cases (hnext c' hc').2.1.symm.trans hprocess
    · intro c' hc'
      rw [(hnext c' hc').1]
      exact h.shipped c hcall
    · intro hmatched c' hc' model hmodel
      rw [(hnext c' hc').1] at hmodel ⊢
      have hold := h.deliverable hmatched c hcall model hmodel
      refine ⟨hold.newer, hold.weights, ?_⟩
      -- the update is of the latest model itself
      intro u' hu' _
      rw [hsent, List.getLast?_concat] at hu'
      obtain rfl := Option.some.inj hu'
      rw [hversion, show server.world.buffer.latestModels.lookup (streamScope c.request) =
        some model from hmodel]
      rfl

structure Delivering (s : StreamServer F) : Prop where
  sound : Sound s
  delivers : ∀ slot ∈ s.slots, Delivers s.server slot

theorem Delivering.step {s s' : StreamServer F} {a : StreamAction F} (h : Delivering s)
    (hputs : PutsDeliverable s a) (hs : streamStep d s a = some s') : Delivering s' := by
  suffices hrest : ∀ slot ∈ s'.slots, Delivers s'.server slot from ⟨h.sound.step hs, hrest⟩
  cases streamStep_result hs with
  | @served a server hserver hrestart =>
    intro slot hslot
    apply (h.delivers slot hslot).of_latestModel
    intro hmatched c hcall model hmodel
    rw [step_latestModel hserver hrestart, afterPut] at hmodel
    cases hput : putModel s.server a with
    | none =>
      rw [hput] at hmodel
      exact .inl hmodel
    | some put =>
      obtain ⟨scope, model'⟩ := put
      rw [hput] at hmodel
      simp only at hmodel
      split at hmodel
      · rename_i hscope
        obtain rfl := Option.some.inj hmodel
        exact .inr (hputs scope model' hput slot hslot hmatched c hcall hscope)
      · exact .inl hmodel
  | restarted _ =>
    intro slot hslot
    obtain rfl := List.mem_singleton.mp hslot
    exact listener_delivers _
  | @arrived i q peer slot hslot _ hmatched _ =>
    have hmem := List.mem_of_getElem? hslot
    obtain ⟨⟨r, hround⟩, hmodels⟩ := hputs
    have hold := h.delivers slot hmem
    have hprocess := ((h.sound slot hmem).unmatched hmatched).2.2
    refine forall_mem_set h.delivers ⟨?_, ?_, ?_, ?_⟩
    · intro c' hc' hstream
      obtain ⟨c, hc, rfl⟩ := Option.map_eq_some_iff.mp hc'
      cases (hprocess c hc).symm.trans hstream
    · intro c' hc' _
      obtain ⟨c, hc, rfl⟩ := Option.map_eq_some_iff.mp hc'
      exact hold.unsent c hc (hprocess c hc)
    · intro c' hc'
      obtain ⟨c, hc, rfl⟩ := Option.map_eq_some_iff.mp hc'
      show 0 ≤ q.lastReceivedRound
      omega
    · intro _ c' hc' model hmodel
      obtain ⟨c, hc, rfl⟩ := Option.map_eq_some_iff.mp hc'
      have hempty : slot.sent = [] := (hold.unsent c hc (hprocess c hc)).1
      show Deliverable q slot.sent model
      rw [hempty]
      exact hmodels model hmodel
  | dequeued hslot _ =>
    have hold := h.delivers _ (List.mem_of_getElem? hslot)
    exact forall_mem_set h.delivers ⟨hold.sentRound, hold.unsent, hold.shipped, hold.deliverable⟩
  | late hslot _ _ =>
    have hold := h.delivers _ (List.mem_of_getElem? hslot)
    exact forall_mem_set h.delivers ⟨hold.sentRound, hold.unsent, hold.shipped, hold.deliverable⟩
  | handled hslot hheld hcall hp =>
    have hmem := List.mem_of_getElem? hslot
    have hnew := handled_delivers (h.sound _ hmem) (h.delivers _ hmem) hheld hcall hp
    intro slot hx
    rcases List.mem_append.mp hx with hold | hspawned
    · exact forall_mem_set h.delivers hnew slot hold
    · split at hspawned
      · obtain rfl := List.mem_singleton.mp hspawned
        exact listener_delivers _
      · cases hspawned
  | shutDown => exact h.delivers

theorem Delivering.waits {s : StreamServer F} (h : Delivering s) : WaitsUpToDate d s := by
  intro slot hslot c event ok o p model hcall hheld hp halarm hmodel
  have hsound := h.sound slot hslot
  have hdelivers := h.delivers slot hslot
  have htracked := (hsound.tracked c hcall).perm (inFlight_perm hheld)
  obtain ⟨hlive, hnothing⟩ :=
    (proceed_sends (getLatestGlobalModel_eq s.server.world c.request) htracked hp).2 halarm
  rw [show s.server.world.buffer.latestModels.lookup (streamScope c.request) = some model
    from hmodel] at hnothing
  -- an object that was never matched only learns of the shutdown
  have hmatched : slot.matched = true := by
    by_contra hunmatched
    rw [Bool.not_eq_true] at hunmatched
    obtain rfl : event = .request := ((hsound.unmatched hunmatched).2.1) _ hheld
    obtain rfl : ok = false := (hsound.answered ok hheld).1.trans hunmatched
    cases hp
    cases halarm
  have hdeliverable := hdelivers.deliverable hmatched c hcall model hmodel
  have hshipped := hdelivers.shipped c hcall
  have hnewer := hdeliverable.newer
  have hround : model.round = c.lastSentRound := by
    rcases hnothing with hnone | hempty | hsame | hold
    · have : model.round = -1 := hnone
      omega
    · exact absurd hempty hdeliverable.weights
    · exact hsame
    · have : model.round ≤ c.request.lastReceivedRound := hold
      omega
  have hlast : c.lastSentRound = (slot.sent.getLast?.map (·.roundIndex)).getD (-1) := by
    cases hstatus : c.status with
    | create => exact absurd hstatus htracked.created
    | process =>
      obtain ⟨hempty, hlast⟩ := hdelivers.unsent c hcall hstatus
      rw [hempty, hlast]
      rfl
    | stream => exact hdelivers.sentRound c hcall hstatus
    | finish => exact absurd hstatus hlive
  cases hsent : slot.sent.getLast? with
  | none =>
    rw [hsent] at hlast
    simp only [Option.map_none, Option.getD_none] at hlast
    omega
  | some u =>
    rw [hsent] at hlast
    simp only [Option.map_some, Option.getD_some] at hlast
    exact ⟨u, rfl, hdeliverable.sameVersion u hsent (hlast.symm.trans hround.symm)⟩

/-- In every run in which the models that come into the scope of a stream are
deliverable, a stream that waits has sent the latest model. -/
theorem streams_deliver {start : Start} {s : StreamServer F}
    (h : Reaches (streamStep d) PutsDeliverable (initialStreams d start) s) :
    WaitsUpToDate d s := by
  have hfirst : Delivering (initialStreams d start) := by
    refine ⟨initialStreams_sound d start, ?_⟩
    intro slot hslot
    obtain rfl := List.mem_singleton.mp hslot
    exact listener_delivers _
  have hdelivering : Delivering s :=
    h.invariant hfirst (fun _ _ _ hI hputs hs => hI.step hputs hs)
  exact hdelivering.waits

def opensLast (s : StreamServer Binary32) : StreamAction Binary32 → Bool
  | .serve _ => s.slots.all (fun slot => !slot.matched)
  | .arrive _ q _ => q.lastReceivedRound == 0 &&
    match latestModel s.server (streamScope q) with
    | none => true
    | some model => decide (0 < model.round) && !model.weights.isEmpty
  | _ => true

theorem putsDeliverable_of_opensLast (s : StreamServer Binary32) (a : StreamAction Binary32)
    (h : opensLast s a = true) : PutsDeliverable s a := by
  cases a with
  | serve a =>
    intro _ _ _ slot hslot hmatched
    have hunmatched := List.all_eq_true.mp h slot hslot
    rw [hmatched] at hunmatched
    cases hunmatched
  | arrive i q peer =>
    simp only [opensLast, Bool.and_eq_true, beq_iff_eq] at h
    obtain ⟨hzero, hmodels⟩ := h
    refine ⟨⟨0, by omega⟩, ?_⟩
    intro model hmodel
    simp only [hmodel, Bool.and_eq_true, decide_eq_true_eq, Bool.not_eq_true',
      List.isEmpty_eq_false_iff] at hmodels
    exact ⟨by omega, hmodels.2, fun u hu => by cases hu⟩
  | _ => trivial

def opening (lastReceivedRound : ℤ) : List (StreamAction Binary32) :=
  [.arrive 0 { baseRequest with lastReceivedRound := lastReceivedRound } site,
    .dequeue 0 .request true]

/-- The model of the first round is written to a client with a lease of the second. -/
def deliveringRun : List (StreamAction Binary32) :=
  (acceptedRun ++ proceeds 2 3).map .serve ++ opening 0 ++
    [.handle 0 .request true (calmStream 4), .dequeue 0 .write true]

def deliveringServer : StreamServer Binary32 :=
  (execTested (streamStep standardDeployment) opensLast deliveringRun firstStreams).get
    (by decide +kernel)

theorem streams_deliver_deliveringServer : WaitsUpToDate standardDeployment deliveringServer := by
  have hreach : Reaches (streamStep standardDeployment) PutsDeliverable
      (initialStreams standardDeployment firstStart) deliveringServer :=
    execTested_reaches opensLast putsDeliverable_of_opensLast deliveringRun (Option.some_get _).symm
  exact streams_deliver hreach

/-- The clients ask from two rounds before the one they lease. -/
def AsksAsShipped (_ : StreamServer Binary32) : StreamAction Binary32 → Prop
  | .arrive _ q _ => ∃ r, q.lastReceivedRound = max 0 (r - 2)
  | _ => True

def leaseAt5 : String := jobAt1 ++ "::round:2::client:a::1970-01-01T00:00:00.005Z"

def rolledBackRun : List (Action Binary32) :=
  acceptedRun ++ proceeds 2 3 ++ leasing "a" site 5 ++
    .submitWeights { zeroSubmission "a" 2 jobAt1 leaseAt5 with baseModelVersion := 1 } site ::
    proceeds 15 6 ++ [.rollbackModel ⟨"t", "m", 1⟩ admin 7, .call 0 7, .call 0 7] ++
    leasing "a" site 8

/-- The first stream waits, although its scope has a model and nothing was sent. -/
def waitsUnsent (s : StreamServer Binary32) : Bool :=
  match s.slots with
  | [] => false
  | slot::_ =>
    match slot.call with
    | none => false
    | some c => slot.held.contains (.request, true) && slot.sent.isEmpty &&
      (latestModel s.server (streamScope c.request)).isSome &&
      match proceed standardDeployment s.server.world c true .request (calmStream 9) with
      | .error _ => false
      | .ok p => p.operations.contains .setAlarm

theorem not_waitsUpToDate {s : StreamServer Binary32} (h : waitsUnsent s = true) :
    ¬ WaitsUpToDate standardDeployment s := by
  intro hwaits
  unfold waitsUnsent at h
  split at h
  · cases h
  · rename_i slot rest hslots
    split at h
    · cases h
    · rename_i c hcall
      simp only [Bool.and_eq_true, List.contains_iff_mem, List.isEmpty_iff] at h
      obtain ⟨⟨⟨hheld, hsent⟩, hmodel⟩, halarm⟩ := h
      obtain ⟨model, hmodel⟩ := Option.isSome_iff_exists.mp hmodel
      split at halarm
      · cases halarm
      · rename_i p hp
        have hmem : slot ∈ s.slots := by
          rw [hslots]
          exact List.mem_cons_self
        obtain ⟨u, hu, -⟩ := hwaits slot hmem c .request true (calmStream 9) p model hcall hheld hp
          (List.contains_iff_mem.mp halarm) hmodel
        rw [hsent] at hu
        cases hu

/-- The stream of the client with that lease waits, and nothing was sent to it. -/
theorem rolledBack_stream_waits :
    ¬ ∀ s, Reaches (streamStep standardDeployment) AsksAsShipped firstStreams s →
      WaitsUpToDate standardDeployment s := by
  intro hall
  have hrun : (execTested (streamStep standardDeployment)
      (fun _ a => match a with
        | .arrive _ q _ => q.lastReceivedRound == max 0 (3 - 2)
        | _ => true) (rolledBackRun.map .serve ++ opening 1) firstStreams).any waitsUnsent = true := by
    decide +kernel
  rw [Option.any_eq_true] at hrun
  obtain ⟨s, hs, hwaits⟩ := hrun
  refine not_waitsUpToDate hwaits (hall s (execTested_reaches _ ?_ _ hs))
  intro s a ha
  cases a with
  | arrive i q peer => exact ⟨3, by simpa using ha⟩
  | _ => trivial

end PqFl.Streams
