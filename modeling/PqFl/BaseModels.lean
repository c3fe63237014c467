import PqFl.ActiveVersions
import PqFl.PendingSubmissions

/-!
# Base models

A submission declares the model version that it was trained on. The server
compares it with the active version when the request arrives; the vector then
waits in the buffer until another request completes the round. What was declared
and what was computed from it is kept here beside the server, as history.
-/

set_option autoImplicit false

namespace PqFl.BaseModels
open PqFl.Identifiers PqFl.StoreRecords PqFl.StateStore PqFl.Crypto PqFl.Aggregation PqFl.Buffer
open PqFl.Services PqFl.Process PqFl.ServerStore PqFl.JobSteps PqFl.SubmissionTracking
open PqFl.PendingSubmissions PqFl.ModelSteps PqFl.CheckpointWrites PqFl.ActiveVersions PqFl.Runs
open PqFl.Configuration PqFl.Floats

variable {F : Type} {d : Deployment F} {s s' : Server F} {a : Action F}

/-- The base version which the vector of a client declared, with its scope. -/
structure Declaration where
  scope : String × String
  base : ℤ

/-- An aggregate: the active version when it was computed, and the base versions
which its submissions declared. -/
structure Computed where
  active : ℤ
  bases : List ℤ

structure Watched (F : Type) where
  server : Server F
  declared : String → String → Declaration
  aggregates : List Computed

def declare (declared : String → String → Declaration) (q : SubmitWeightsRequest) :
    String → String → Declaration := fun key clientId =>
  if key = requestKey q ∧ clientId = q.clientId then ⟨requestScope q, q.baseModelVersion⟩
  else declared key clientId

def watched (s : Server F) : Watched F := ⟨s, fun _ _ => ⟨("", ""), 0⟩, []⟩

/-- Whatever positive base versions an aggregate comes from, they are the one
that was active. -/
def Unmixed (x : Watched F) : Prop := ∀ g ∈ x.aggregates, ∀ v ∈ g.bases, 0 < v → v = g.active

def isCompared (p : SubmitPoint F) : Bool := decide (0 < stage p) && decide (stage p ≤ 8)

/-- The vector of a client waits in an open round. The vectors of a round that is
being aggregated do not wait any more. -/
structure Waits (s : Server F) (key clientId : String) : Prop where
  pending : clientId ∈ submissions s.world.buffer key
  isOpen : key ∉ s.world.buffer.completedRounds
  notInHand : ∀ c, submitting s = some c → c.point.locksBuffer = true → key ≠ requestKey c.q

def SameScope (scope : String × String) (t m : String) : Prop :=
  normalizeTenant scope.1 = normalizeTenant t ∧ normalizeModel scope.2 = normalizeModel m

/-- Somebody who declared the active version of the scope is yet to be aggregated. -/
def Relied (x : Watched F) (t m : String) : Prop :=
  (∃ key clientId, Waits x.server key clientId ∧ SameScope (x.declared key clientId).scope t m ∧
    0 < (x.declared key clientId).base) ∨
  ∃ c, submitting x.server = some c ∧ isCompared c.point = true ∧
    SameScope (requestScope c.q) t m ∧ 0 < c.q.baseModelVersion

structure Based (x : Watched F) : Prop where
  waiting : ∀ key clientId, Waits x.server key clientId → 0 < (x.declared key clientId).base →
    (x.declared key clientId).base = activeVersion x.server (x.declared key clientId).scope
  compared : ∀ c, submitting x.server = some c → isCompared c.point = true →
    0 < c.q.baseModelVersion → c.q.baseModelVersion = activeVersion x.server (requestScope c.q)
  unmixed : Unmixed x

theorem initial_based (d : Deployment F) (start : Start) : Based (watched (initial d start)) where
  waiting := by
    intro key clientId hwaits
    have hpending := hwaits.pending
    simp [watched, initial, submissions, emptyBuffer] at hpending
  compared := by
    intro c hc
    cases hc
  unmixed := by
    intro g hg
    cases hg

theorem Based.kept {x : Watched F} (hx : Based x)
    (hwaits : ∀ key clientId, Waits s' key clientId → Waits x.server key clientId)
    (hactive : ∀ scope : String × String, Relied x scope.1 scope.2 →
      activeVersion s' scope = activeVersion x.server scope)
    (hcompared : ∀ c, submitting s' = some c → isCompared c.point = true →
      0 < c.q.baseModelVersion → c.q.baseModelVersion = activeVersion s' (requestScope c.q)) :
    Based ⟨s', x.declared, x.aggregates⟩ where
  waiting := by
    intro key clientId hw hbase
    have hbefore := hwaits key clientId hw
    dsimp only at hbase ⊢
    rw [hactive _ (.inl ⟨key, clientId, hbefore, ⟨rfl, rfl⟩, hbase⟩)]
    exact hx.waiting key clientId hbefore hbase
  compared := hcompared
  unmixed := hx.unmixed

theorem Waits.of_same {key clientId : String} (h : Waits s' key clientId)
    (hweights : s'.world.buffer.roundWeights = s.world.buffer.roundWeights)
    (hcompleted : s'.world.buffer.completedRounds = s.world.buffer.completedRounds)
    (hsubmitting : ∀ c, submitting s = some c → submitting s' = some c) :
    Waits s key clientId where
  pending := by
    have hpending := h.pending
    unfold submissions at hpending ⊢
    rw [← hweights]
    exact hpending
  isOpen := by
    rw [← hcompleted]
    exact h.isOpen
  notInHand c hc := h.notInHand c (hsubmitting c hc)

theorem Relied.congr {x : Watched F} {scope : String × String} {t m : String}
    (h : Relied x scope.1 scope.2) (hscope : SameScope scope t m) : Relied x t m := by
  rcases h with ⟨key, clientId, hwaits, hsame, hbase⟩ | ⟨c, hc, hcompared, hsame, hbase⟩
  · exact .inl ⟨key, clientId, hwaits, ⟨hsame.1.trans hscope.1, hsame.2.trans hscope.2⟩, hbase⟩
  · exact .inr ⟨c, hc, hcompared, ⟨hsame.1.trans hscope.1, hsame.2.trans hscope.2⟩, hbase⟩

theorem activeVersion_sameScope {scope : String × String} {t m : String}
    (h : SameScope scope t m) : activeVersion s scope = getActiveModelVersion s.world.store t m := by
  unfold activeVersion getActiveModelVersion getActiveModelRecord
  rw [h.1, h.2]

theorem startSubmit_compared {q : SubmitWeightsRequest} {peer : Peer} {c : Submitting F}
    (hc : submitting (startSubmit s q peer) = some c) : isCompared c.point = false := by
  rw [submitting_startSubmit] at hc
  obtain rfl := Option.some.inj hc
  rcases startSubmitWeights_cases s.world.registry q peer with hp | ⟨message, hp⟩
  · dsimp only
    rw [hp]
    rfl
  · dsimp only
    rw [hp]
    rfl

theorem unlocked_notInHand {c : Submitting F} (hc : submitting s = some c)
    (hpoint : c.point.locksBuffer = false) (key : String) :
    ∀ c, submitting s = some c → c.point.locksBuffer = true → key ≠ requestKey c.q := by
  intro c' hc' hlocked
  obtain rfl := Option.some.inj (hc.symm.trans hc')
  rw [hpoint] at hlocked
  cases hlocked

theorem declare_own (declared : String → String → Declaration) (q : SubmitWeightsRequest) :
    declare declared q (requestKey q) q.clientId = ⟨requestScope q, q.baseModelVersion⟩ :=
  if_pos ⟨rfl, rfl⟩

theorem declare_other (declared : String → String → Declaration) {q : SubmitWeightsRequest}
    {key clientId : String} (h : ¬ (key = requestKey q ∧ clientId = q.clientId)) :
    declare declared q key clientId = declared key clientId := if_neg h

theorem compared_add {p : SubmitPoint F} {job : Option PersistedTrainingJobRecord}
    {weights : List F} (h : p = .add job weights) : isCompared p = true := by
  rw [h]
  rfl

variable [FloatArith F]

def completedBy (d : Deployment F) (s : Server F) (q : SubmitWeightsRequest)
    (job : Option PersistedTrainingJobRecord) (weights : List F) : WeightMap F :=
  submissions (insertSubmission s.world.buffer d.config.clipNorm (submission d.config q job weights))
    (requestKey q)

def computed (d : Deployment F) (x : Watched F) (q : SubmitWeightsRequest)
    (job : Option PersistedTrainingJobRecord) (weights : List F) : Computed where
  active := activeVersion x.server (requestScope q)
  bases := (completedBy d x.server q job weights).keys.map (fun clientId =>
    (declare x.declared q (requestKey q) clientId).base)

/-- The step which adds a vector notes what it declared, and the aggregate if it
completes the round. -/
def noteAdded (d : Deployment F) (x : Watched F) (q : SubmitWeightsRequest) :
    SubmitPoint F → (String → String → Declaration) × List Computed
  | .add job weights => (declare x.declared q,
      if Aggregates d.config.toAggregationConfig x.server.world.buffer
          (submission d.config q job weights) then
        x.aggregates ++ [computed d x q job weights]
      else x.aggregates)
  | _ => (x.declared, x.aggregates)

def note (d : Deployment F) (x : Watched F) :
    Action F → (String → String → Declaration) × List Computed
  | .proceed _ => match submitting x.server with
    | some c => noteAdded d x c.q c.point
    | none => (x.declared, x.aggregates)
  | _ => (x.declared, x.aggregates)

def watch (d : Deployment F) (x : Watched F) (a : Action F) : Option (Watched F) :=
  (Process.step d x.server a).map (fun s' => ⟨s', (note d x a).1, (note d x a).2⟩)

/-- A submission declares a positive base only when a model is active; its round
has no such vectors of another scope; and the active version of a scope changes
only while nobody relies on it. -/
def BasesStand (d : Deployment F) (x : Watched F) : Action F → Prop
  | .proceed _ => ∀ c, submitting x.server = some c → match c.point with
    | .modelVersion => 0 < c.q.baseModelVersion → 0 < activeVersion x.server (requestScope c.q)
    | .add job weights => Aggregates d.config.toAggregationConfig x.server.world.buffer
        (submission d.config c.q job weights) →
        ∀ clientId ∈ submissions x.server.world.buffer (requestKey c.q),
          0 < (x.declared (requestKey c.q) clientId).base →
            (x.declared (requestKey c.q) clientId).scope = requestScope c.q
    | .record _ _ _ => ¬ Relied x c.q.tenantId c.q.modelId
    | _ => True
  | .rollbackModel q peer now => rollsBack d q peer = true →
      (rollbackModel x.server.world.store q.tenantId q.modelId q.targetVersion now).value.isSome =
        true → Relied x q.tenantId q.modelId →
          q.targetVersion = getActiveModelVersion x.server.world.store q.tenantId q.modelId
  | _ => True

theorem rollback_relied {x : Watched F} (hr : StoreReached x.server) {q : RollbackModelRequest}
    {peer : Peer} {now : ℕ} (ha : BasesStand d x (.rollbackModel q peer now))
    {scope : String × String} (hrelied : Relied x scope.1 scope.2) :
    activeVersion (startRollbackModel d x.server q peer now) scope =
      activeVersion x.server scope := by
  rw [startRollback_activeVersion hr]
  split
  · rename_i h
    obtain ⟨hpass, hscope, hfound⟩ := h
    rw [activeVersion_sameScope hscope]
    exact ha hpass hfound (hrelied.congr hscope)
  · rfl

theorem relied_activeVersion {x : Watched F} (hr : StoreReached x.server) (ha : BasesStand d x a)
    (h : Process.step d x.server a = some s')
    (hproceed : ∀ o, a = .proceed o → submitting x.server = none)
    (hrestart : ∀ start, a ≠ .restart start) {scope : String × String}
    (hrelied : Relied x scope.1 scope.2) :
    activeVersion s' scope = activeVersion x.server scope := by
  by_cases hrollback : ∃ q peer now, a = .rollbackModel q peer now
  · obtain ⟨q, peer, now, rfl⟩ := hrollback
    cases h
    exact rollback_relied hr ha hrelied
  · have hno : ∀ q peer now, a ≠ .rollbackModel q peer now :=
      fun q peer now heq => hrollback ⟨q, peer, now, heq⟩
    exact step_activeVersion h hproceed hno hrestart scope

theorem next_compared {w : World F} {q : SubmitWeightsRequest} {peer : Peer} {o : Oracle F}
    {p p' : SubmitPoint F} (h : (stepSubmitWeights d w q peer o p).2 = .inl p')
    (hp' : isCompared p' = true) : isCompared p = true ∨ p = .modelVersion := by
  have hstage := next_stage h
  unfold isCompared at *
  rw [Bool.and_eq_true, decide_eq_true_eq, decide_eq_true_eq] at *
  by_cases hzero : stage p = 0
  · right
    cases p with
    | modelVersion => rfl
    | _ => cases hzero
  · omega

theorem compared_base {w : World F} {q : SubmitWeightsRequest} {peer : Peer} {o : Oracle F}
    {p' : SubmitPoint F} (h : (stepSubmitWeights d w q peer o .modelVersion).2 = .inl p')
    (hp' : isCompared p' = true) (hbase : 0 < q.baseModelVersion)
    (hactive : 0 < getActiveModelVersion w.store (requestScope q).1 (requestScope q).2) :
    q.baseModelVersion = getActiveModelVersion w.store (requestScope q).1 (requestScope q).2 := by
  by_contra hne
  obtain rfl := Sum.inl.inj h
  rw [if_pos ⟨hbase, hactive, hne⟩] at hp'
  cases hp'

theorem inHand_waits {c c' : Submitting F} {o : Oracle F} {key clientId : String}
    (hc : submitting s = some c)
    (hbuffer : (stepSubmitWeights d s.world c.q c.peer o c.point).1.buffer = s.world.buffer)
    (hnext : submitting (proceedSubmit d s c.q c.peer c.serial o c.point) = some c')
    (hq : c'.q = c.q) (hlocked : c'.point.locksBuffer = true)
    (h : Waits (proceedSubmit d s c.q c.peer c.serial o c.point) key clientId) :
    Waits s key clientId := by
  have hworld : (proceedSubmit d s c.q c.peer c.serial o c.point).world.buffer = s.world.buffer :=
    hbuffer
  refine ⟨?_, ?_, ?_⟩
  · rw [← hworld]
    exact h.pending
  · rw [← hworld]
    exact h.isOpen
  · intro c'' hc'' _
    obtain rfl := Option.some.inj (hc.symm.trans hc'')
    rw [← hq]
    exact h.notInHand c' hnext hlocked

theorem added_waits {c : Submitting F} {o : Oracle F} {job : Option PersistedTrainingJobRecord}
    {weights : List F} {key clientId : String} (hc : submitting s = some c)
    (hadd : c.point = .add job weights)
    (h : Waits (proceedSubmit d s c.q c.peer c.serial o c.point) key clientId) :
    Waits s key clientId ∨ (key = requestKey c.q ∧ clientId = c.q.clientId) := by
  have hadded := addWeight_added d.primitives d.config.toAggregationConfig s.world.crypto
    s.world.files s.world.buffer (submission d.config c.q job weights) o.draw
  have hunlocked : c.point.locksBuffer = false := by
    rw [hadd]
    rfl
  rw [hadd] at h
  have hopen : key ∉ s.world.buffer.completedRounds := by
    rw [← hadded.sameBut.completed]
    exact h.isOpen
  rcases hadded.mem_submissions h.pending with hown | hbefore
  · exact .inr hown
  · exact .inl ⟨hbefore, hopen, unlocked_notInHand hc hunlocked key⟩

theorem published_waits {c : Submitting F} {o : Oracle F} {job : Option PersistedTrainingJobRecord}
    {p : Prepared F} {v : ℤ} {key clientId : String} (hc : submitting s = some c)
    (hpublish : c.point = .publish job p v)
    (h : Waits (proceedSubmit d s c.q c.peer c.serial o c.point) key clientId) :
    Waits s key clientId := by
  rw [hpublish] at h
  have hopen : key ∉ insert (requestKey c.q) s.world.buffer.completedRounds := h.isOpen
  rw [Finset.mem_insert, not_or] at hopen
  refine ⟨h.pending, hopen.2, ?_⟩
  intro c' hc' _
  obtain rfl := Option.some.inj (hc.symm.trans hc')
  exact hopen.1

theorem proceed_waits {c : Submitting F} {o : Oracle F} {key clientId : String}
    (hc : submitting s = some c)
    (h : Waits (proceedSubmit d s c.q c.peer c.serial o c.point) key clientId) :
    Waits s key clientId ∨ ((∃ job weights, c.point = .add job weights) ∧
      key = requestKey c.q ∧ clientId = c.q.clientId) := by
  by_cases hadd : ∃ job weights, c.point = .add job weights
  · obtain ⟨job, weights, hpoint⟩ := hadd
    exact (added_waits hc hpoint h).imp id (fun hown => ⟨⟨job, weights, hpoint⟩, hown⟩)
  left
  by_cases hpublish : ∃ job p v, c.point = .publish job p v
  · obtain ⟨job, p, v, hpoint⟩ := hpublish
    exact published_waits hc hpoint h
  have hbuffer := ((stepSubmitWeights_buffer (d := d) s.world c.q c.peer o c.point).resolve_left
    hadd).resolve_left hpublish
  have hstep := proceed_submitStep (d := d) (s := s) c o
  cases hstep with
  | on hpoint hview hnext =>
    refine ⟨?_, ?_, unlocked_notInHand hc hpoint key⟩
    · have hpending := h.pending
      unfold proceedSubmit at hpending
      rw [hbuffer] at hpending
      exact hpending
    · have hopen := h.isOpen
      unfold proceedSubmit at hopen
      rw [hbuffer] at hopen
      exact hopen
  | removed hpoint haggregates htorn hview hnext => exact absurd ⟨_, _, hpoint⟩ hadd
  | written hpoint haggregates hwritten hpath hview hnext => exact absurd ⟨_, _, hpoint⟩ hadd
  | keyVersion hpoint hview hnext => exact inHand_waits hc hbuffer hnext rfl rfl h
  | recorded hpoint hview hnext => exact inHand_waits hc hbuffer hnext rfl rfl h
  | published hpoint hview hnext => exact absurd ⟨_, _, _, hpoint⟩ hpublish

theorem proceed_relied {x : Watched F} (hr : StoreReached x.server) {c : Submitting F}
    {o : Oracle F} (hc : submitting x.server = some c) (ha : BasesStand d x (.proceed o))
    {scope : String × String} (hrelied : Relied x scope.1 scope.2) :
    activeVersion (proceedSubmit d x.server c.q c.peer c.serial o c.point) scope =
      activeVersion x.server scope := by
  by_cases hrecord : ∃ job p v, c.point = .record job p v
  · obtain ⟨job, p, v, hpoint⟩ := hrecord
    have hnone := ha c hc
    rw [hpoint] at hnone
    rw [recording_activeVersion hr hpoint, if_neg]
    exact fun hscope => hnone (hrelied.congr hscope)
  · exact proceed_activeVersion (fun job p v hpoint => hrecord ⟨job, p, v, hpoint⟩) scope

theorem proceed_compared {x : Watched F} {c c' : Submitting F} {o : Oracle F} (hx : Based x)
    (hc : submitting x.server = some c) (ha : BasesStand d x (.proceed o))
    (hc' : submitting (proceedSubmit d x.server c.q c.peer c.serial o c.point) = some c')
    (hcompared : isCompared c'.point = true) (hbase : 0 < c'.q.baseModelVersion) :
    c'.q.baseModelVersion = activeVersion (proceedSubmit d x.server c.q c.peer c.serial o c.point)
      (requestScope c'.q) := by
  obtain ⟨p', hnext, rfl⟩ := submitting_proceed.mp hc'
  have hpoint : ∀ job p v, c.point ≠ .record job p v := by
    intro job p v hrecord
    rw [hrecord] at hnext
    obtain rfl := Sum.inl.inj hnext
    cases hcompared
  rw [proceed_activeVersion hpoint]
  rcases next_compared hnext hcompared with hbefore | hfirst
  · exact hx.compared c hc hbefore hbase
  · have hactive := ha c hc
    rw [hfirst] at hactive hnext
    exact compared_base hnext hcompared hbase (hactive hbase)

theorem computed_unmixed {x : Watched F} (hx : Based x) {c : Submitting F} {o : Oracle F}
    {job : Option PersistedTrainingJobRecord} {weights : List F}
    (hc : submitting x.server = some c) (hadd : c.point = .add job weights)
    (ha : BasesStand d x (.proceed o))
    (haggregates : Aggregates d.config.toAggregationConfig x.server.world.buffer
      (submission d.config c.q job weights)) :
    ∀ v ∈ (computed d x c.q job weights).bases, 0 < v →
      v = (computed d x c.q job weights).active := by
  intro v hv hpositive
  obtain ⟨clientId, hclient, rfl⟩ := List.mem_map.mp hv
  have hmem := AList.mem_keys.mpr hclient
  have hown := hx.compared c hc (compared_add hadd)
  by_cases hsame : clientId = c.q.clientId
  · subst hsame
    rw [declare_own] at hpositive ⊢
    exact hown hpositive
  · rw [declare_other _ (fun h => hsame h.2)] at hpositive ⊢
    have hpending : clientId ∈ submissions x.server.world.buffer (requestKey c.q) := by
      have hkey : requestKey c.q = roundKey (submission d.config c.q job weights).tenantId
        (submission d.config c.q job weights).modelId
        (submission d.config c.q job weights).round := rfl
      unfold completedBy at hmem
      rw [submissions_insertSubmission, if_pos hkey, AList.mem_insert] at hmem
      exact hmem.resolve_left hsame
    have hunlocked : c.point.locksBuffer = false := by
      rw [hadd]
      rfl
    have hwaits : Waits x.server (requestKey c.q) clientId :=
      ⟨hpending, haggregates.1, unlocked_notInHand hc hunlocked _⟩
    have hscope := ha c hc
    rw [hadd] at hscope
    rw [hx.waiting _ _ hwaits hpositive, hscope haggregates clientId hpending hpositive]
    rfl

theorem added_based {x : Watched F} (hx : Based x) {c : Submitting F} {o : Oracle F}
    {job : Option PersistedTrainingJobRecord} {weights : List F}
    (hc : submitting x.server = some c) (hadd : c.point = .add job weights)
    (ha : BasesStand d x (.proceed o)) :
    Based ⟨proceedSubmit d x.server c.q c.peer c.serial o c.point,
      (noteAdded d x c.q c.point).1, (noteAdded d x c.q c.point).2⟩ := by
  have hrecord : ∀ job p v, c.point ≠ .record job p v := by
    intro job p v h
    cases hadd.symm.trans h
  have hactive := proceed_activeVersion (d := d) (s := x.server) (o := o) hrecord
  have hdeclared : (noteAdded d x c.q c.point).1 = declare x.declared c.q := by
    rw [hadd]
    rfl
  constructor
  · intro key clientId hwaits hbase
    dsimp only at hwaits hbase ⊢
    rw [hdeclared] at hbase ⊢
    rw [hactive]
    by_cases hown : key = requestKey c.q ∧ clientId = c.q.clientId
    · obtain ⟨rfl, rfl⟩ := hown
      rw [declare_own] at hbase ⊢
      exact hx.compared c hc (compared_add hadd) hbase
    · rw [declare_other _ hown] at hbase ⊢
      have hbefore := (proceed_waits hc hwaits).resolve_right (fun h => hown h.2)
      exact hx.waiting key clientId hbefore hbase
  · intro c' hc' hcompared hbase
    exact proceed_compared hx hc ha hc' hcompared hbase
  · intro g hg
    dsimp only at hg
    rw [hadd] at hg
    simp only [noteAdded] at hg
    split at hg
    · rename_i haggregates
      rcases List.mem_append.mp hg with hold | hnew
      · exact hx.unmixed g hold
      · rw [List.mem_singleton.mp hnew]
        exact computed_unmixed hx hc hadd ha haggregates
    · exact hx.unmixed g hg

theorem waits_restarted {P : Primitives} {start : Start} (h : restart P s start = some s')
    (key clientId : String) : ¬ Waits s' key clientId := by
  intro hwaits
  have hpending := hwaits.pending
  unfold submissions at hpending
  rw [(restart_empty h).1] at hpending
  exact absurd hpending (AList.notMem_empty _)

theorem beside_based {x : Watched F} (hr : StoreReached x.server) (hx : Based x)
    (ha : BasesStand d x a) (h : Process.step d x.server a = some s')
    (hnone : ∀ o, a = .proceed o → submitting x.server = none) :
    Based ⟨s', x.declared, x.aggregates⟩ := by
  by_cases hrestart : ∃ start, a = .restart start
  · obtain ⟨start, rfl⟩ := hrestart
    refine ⟨?_, ?_, hx.unmixed⟩
    · intro key clientId hwaits
      exact absurd hwaits (waits_restarted h key clientId)
    · intro c hc
      rw [(restart_empty h).2.2.1] at hc
      cases hc
  have hactive : ∀ scope : String × String, Relied x scope.1 scope.2 →
      activeVersion s' scope = activeVersion x.server scope := fun scope hrelied =>
    relied_activeVersion hr ha h hnone (fun start heq => hrestart ⟨start, heq⟩) hrelied
  have hsame : ∀ c, submitting x.server = some c → isCompared c.point = true →
      0 < c.q.baseModelVersion → c.q.baseModelVersion = activeVersion s' (requestScope c.q) := by
    intro c hc hcompared hbase
    rw [hactive _ (.inr ⟨c, hc, hcompared, ⟨rfl, rfl⟩, hbase⟩)]
    exact hx.compared c hc hcompared hbase
  cases step_jobStep h with
  | moved hmove hdisk hbuffer hserved hsubmit =>
    apply hx.kept _ hactive
    · rw [hsubmit]
      exact hsame
    · intro key clientId hwaits
      apply hwaits.of_same hbuffer.roundWeights hbuffer.completedRounds
      rw [hsubmit]
      exact fun c hc => hc
  | create hcreates =>
    apply hx.kept _ hactive hsame
    intro key clientId hwaits
    exact hwaits.of_same rfl rfl (fun c hc => hc)
  | submit hidle =>
    apply hx.kept _ hactive
    · intro c hc hcompared
      rw [startSubmit_compared hc] at hcompared
      cases hcompared
    · intro key clientId hwaits
      refine hwaits.of_same (s := x.server) rfl rfl ?_
      rw [submitting_none hidle]
      intro c hc
      cases hc
  | proceed hc =>
    rw [hnone _ rfl] at hc
    cases hc
  | restart hs => exact absurd ⟨_, rfl⟩ hrestart

theorem watch_based {x x' : Watched F} (hr : StoreReached x.server) (hx : Based x)
    (ha : BasesStand d x a) (h : watch d x a = some x') : Based x' := by
  obtain ⟨s', hs', rfl⟩ := Option.map_eq_some_iff.mp h
  by_cases hproceed : ∃ o c, a = .proceed o ∧ submitting x.server = some c
  · obtain ⟨o, c, rfl, hc⟩ := hproceed
    obtain rfl := step_of_submitting hc hs'
    have hnote : note d x (.proceed o) = noteAdded d x c.q c.point := by
      unfold note
      rw [hc]
    rw [hnote]
    by_cases hadd : ∃ job weights, c.point = .add job weights
    · obtain ⟨job, weights, hpoint⟩ := hadd
      exact added_based hx hc hpoint ha
    · have hsame : noteAdded d x c.q c.point = (x.declared, x.aggregates) := by
        unfold noteAdded
        split
        · rename_i job weights hpoint
          exact absurd ⟨job, weights, hpoint⟩ hadd
        · rfl
      rw [hsame]
      apply hx.kept
      · intro key clientId hwaits
        exact (proceed_waits hc hwaits).resolve_right (fun hown => hadd hown.1)
      · intro scope hrelied
        exact proceed_relied hr hc ha hrelied
      · intro c' hc' hcompared hbase
        exact proceed_compared hx hc ha hc' hcompared hbase
  · have hnone : ∀ o, a = .proceed o → submitting x.server = none := by
      intro o ho
      cases hc : submitting x.server with
      | none => rfl
      | some c => exact absurd ⟨o, c, ho, hc⟩ hproceed
    have hnote : note d x a = (x.declared, x.aggregates) := by
      cases a with
      | proceed o => simp only [note, hnone o rfl]
      | _ => rfl
    rw [hnote]
    exact beside_based hr hx ha hs' hnone

/-- While bases stand, all submissions of an aggregate which declared a positive
base version declared the one that was active. -/
theorem bases_unmixed (d : Deployment F) (start : Start) (x : Watched F)
    (h : Reaches (watch d) (BasesStand d) (watched (initial d start)) x) : Unmixed x := by
  have hall : StoreReached x.server ∧ Based x := by
    apply h.invariant (I := fun x => StoreReached x.server ∧ Based x)
    · exact ⟨initial_storeReached d start, initial_based d start⟩
    · intro x a x' hx ha hstep
      obtain ⟨s', hs', -⟩ := Option.map_eq_some_iff.mp hstep
      refine ⟨?_, watch_based hx.1 hx.2 ha hstep⟩
      obtain ⟨s'', hs'', rfl⟩ := Option.map_eq_some_iff.mp hstep
      exact step_storeReached hx.1 hs''
  exact hall.2.unmixed

/-- The condition, checked for the steps of a run with one open round and no
rollback. -/
def basesStand (x : Watched Binary32) : Action Binary32 → Bool
  | .proceed _ => match x.server.federated with
    | some (.submitWeights q _ _ .modelVersion) =>
      decide (q.baseModelVersion = 0) || decide (0 < activeVersion x.server (requestScope q))
    | some (.submitWeights q _ _ (.add _ _)) =>
      (submissions x.server.world.buffer (requestKey q)).keys.all (fun clientId =>
        (x.declared (requestKey q) clientId).scope == requestScope q)
    | some (.submitWeights q _ _ (.record _ _ _)) =>
      x.server.world.buffer.roundWeights.keys.all (fun key =>
        key == requestKey q || decide (key ∈ x.server.world.buffer.completedRounds))
    | _ => true
  | .rollbackModel _ _ _ => false
  | _ => true

theorem basesStand_of_basesStand (x : Watched Binary32) (a : Action Binary32)
    (h : basesStand x a = true) : BasesStand standardDeployment x a := by
  cases a with
  | rollbackModel q peer now => cases h
  | proceed o =>
    intro c hc
    unfold basesStand at h
    rw [federated_of_submitting hc] at h
    split
    · rename_i hpoint
      rw [hpoint] at h
      intro hbase
      rcases Bool.or_eq_true_iff.mp h with hzero | hactive
      · rw [decide_eq_true_eq] at hzero
        omega
      · exact decide_eq_true_eq.mp hactive
    · rename_i job weights hpoint
      rw [hpoint] at h
      intro _ clientId hclient _
      have hall := List.all_eq_true.mp h clientId (AList.mem_keys.mp hclient)
      exact beq_iff_eq.mp hall
    · rename_i job p v hpoint
      rw [hpoint] at h
      rintro (⟨key, clientId, hwaits, -, -⟩ | ⟨c', hc', hcompared, -, -⟩)
      · have hkey : key ∈ x.server.world.buffer.roundWeights.keys := by
          rw [← AList.mem_keys, ← AList.lookup_isSome]
          have hpending := hwaits.pending
          unfold submissions at hpending
          cases hround : x.server.world.buffer.roundWeights.lookup key with
          | none =>
            rw [hround] at hpending
            exact absurd hpending (AList.notMem_empty _)
          | some weights => rfl
        rcases Bool.or_eq_true_iff.mp (List.all_eq_true.mp h key hkey) with hown | hdone
        · have hlocked : c.point.locksBuffer = true := by
            rw [hpoint]
            rfl
          exact hwaits.notInHand c hc hlocked (beq_iff_eq.mp hown)
        · exact hwaits.isOpen (decide_eq_true_eq.mp hdone)
      · obtain rfl := Option.some.inj (hc.symm.trans hc')
        rw [hpoint] at hcompared
        cases hcompared
    · trivial
  | _ => trivial

/-- The second round is based on the model of the first. -/
theorem bases_unmixed_twice : ∃ x : Watched Binary32,
    x.aggregates.map (fun g => (g.active, g.bases)) = [(0, [0, 0]), (1, [1, 1])] ∧ Unmixed x := by
  have htest : (execTested (watch standardDeployment) basesStand (twoClients ++ roundOn 1 0 ++
      roundOn 2 1) (watched (initial standardDeployment firstStart))).any (fun x =>
        x.aggregates.map (fun g => (g.active, g.bases)) == [(0, [0, 0]), (1, [1, 1])]) = true := by
    decide +kernel
  rw [Option.any_eq_true] at htest
  obtain ⟨x, hx, hresult⟩ := htest
  have hreaches := execTested_reaches basesStand basesStand_of_basesStand _ hx
  exact ⟨x, beq_iff_eq.mp hresult, bases_unmixed standardDeployment firstStart x hreaches⟩

/-- A vector on version 1 waits for round 3 while round 2 makes version 2. -/
theorem bases_mixed : ∃ x,
    Reaches (watch standardDeployment) Free (watched (initial standardDeployment firstStart)) x ∧
    ¬ Unmixed x := by
  have htest : (exec (watch standardDeployment) (twoClients ++ roundOn 1 0 ++ basedOn "a" 3 1 9 ++
      roundOn 2 1 ++ basedOn "b" 3 2 12) (watched (initial standardDeployment firstStart))).any
        (fun x => x.aggregates.map (fun g => (g.active, g.bases)) ==
          [(0, [0, 0]), (1, [1, 1]), (2, [2, 1])]) = true := by
    decide +kernel
  rw [Option.any_eq_true] at htest
  obtain ⟨x, hx, hresult⟩ := htest
  refine ⟨x, exec_reaches _ hx, ?_⟩
  intro hunmixed
  have hmem : (2, [2, 1]) ∈ x.aggregates.map (fun g => (g.active, g.bases)) := by
    rw [beq_iff_eq.mp hresult]
    simp
  obtain ⟨g, hg, heq⟩ := List.mem_map.mp hmem
  obtain ⟨hactive, hbases⟩ := Prod.mk.inj heq
  have hone := hunmixed g hg 1 (by rw [hbases]; simp) (by norm_num)
  rw [hactive] at hone
  cases hone

end PqFl.BaseModels
