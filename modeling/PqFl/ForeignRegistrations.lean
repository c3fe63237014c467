import PqFl.ClientNames
import PqFl.Configuration

/-!
# Foreign registrations

The registry refuses a second registration of a client, whoever sends it, and
the handler writes its data to the store all the same. The store protects the
identity of a record, but not the rest of it.
-/

set_option autoImplicit false

namespace PqFl.ForeignRegistrations
open PqFl.Identifiers PqFl.Timestamps PqFl.StoreRecords PqFl.StateStore PqFl.ClientRegistry
open PqFl.Buffer PqFl.Services PqFl.Process PqFl.StoreRuns PqFl.CertificateBinding PqFl.Runs
open PqFl.Aggregation PqFl.Floats PqFl.Configuration

variable {F : Type}

/-- `RegisterClient` from its checks to the answer. -/
def serveRegisterClient (w : World F) (q : RegisterClientRequest) (peer : Peer) (now : ℕ) :
    World F × RegisterClientResponse :=
  if rejectsRegisterClient q peer then (w, {})
  else
    let info := clientInfo q peer (currentTimestamp now)
    let registered := register w.registry info
    let w := { w with registry := registered.2 }
    let latest := getLatestGlobalModel w.buffer info.tenantId info.modelId
    let response : RegisterClientResponse := {
      accepted := registered.1
      assignedId := q.clientId
      currentRound := latest.round
      activeModelVersion := getActiveModelVersion w.store info.tenantId info.modelId }
    let w := w.after (recordClientRegistration w.store (clientRecord info) now)
    (w.after (recordAuditEvent w.store ⟨currentTimestamp now,
      if response.accepted then "client_registered" else "client_register_duplicate",
      info.tenantId, info.modelId, info.clientId,
      "Dataset size " ++ toString info.localDatasetSize⟩ now), response)

theorem serveRegisterClient_steps [FloatArith F] {d : Deployment F} {s : Server F}
    (hidle : s.federated = none) (q : RegisterClientRequest) (peer : Peer) (o : Oracle F) : ∃ n s',
    exec (Process.step d) (.registerClient q peer o.now :: List.replicate n (.proceed o)) s =
      some s' ∧ s'.world = (serveRegisterClient s.world q peer o.now).1 ∧ s'.federated = none := by
  have hstart : Process.step d s (.registerClient q peer o.now) =
      some (startRegisterClient s q peer o.now) := by
    simp only [Process.step, hidle]
    rfl
  unfold startRegisterClient at hstart
  by_cases hrejects : rejectsRegisterClient q peer = true
  · rw [if_pos hrejects] at hstart
    refine ⟨0, s, ?_, ?_, hidle⟩
    · simp only [exec, hstart]
      rfl
    · rw [serveRegisterClient, if_pos hrejects]
  · rw [if_neg hrejects] at hstart
    refine ⟨4, { s with
      world := (serveRegisterClient s.world q peer o.now).1
      federated := none }, ?_, rfl, rfl⟩
    simp only [exec, hstart]
    rw [serveRegisterClient, if_neg hrejects]
    rfl

def registrationName (q : RegisterClientRequest) : ClientName :=
  ⟨normalizeTenant q.tenantId, normalizeModel q.modelId, q.clientId⟩

structure Metadata where
  localDatasetSize : ℤ
  hardwareInfo : String
  datasetFingerprint : String
  deriving DecidableEq

def declared (q : RegisterClientRequest) : Metadata :=
  ⟨max 1 q.localDatasetSize, q.hardwareInfo, q.datasetFingerprint⟩

def entryMetadata (info : ClientInfo) : Metadata :=
  ⟨info.localDatasetSize, info.hardwareInfo, info.datasetFingerprint⟩

def recordMetadata (c : PersistedClientRecord) : Metadata :=
  ⟨c.localDatasetSize, c.hardwareInfo, c.datasetFingerprint⟩

structure BoundTo (w : World F) (n : ClientName) (i : String) : Prop where
  entry : boundIdentity w.registry n.key = some i
  named : i ≠ ""

structure Untouched (w w' : World F) (n : ClientName) : Prop where
  entry : w'.registry.lookup n.key = w.registry.lookup n.key
  record : storedClient w'.store n = storedClient w.store n

structure Renewed (w' : World F) (q : RegisterClientRequest) : Prop where
  entry : (w'.registry.lookup (registrationName q).key).map entryMetadata = some (declared q)
  record : (storedClient w'.store (registrationName q)).map recordMetadata = some (declared q)

/-- A registration of a client of this identity is refused to others, without an
effect, and renews what the owner declares. -/
structure RespectsOwner (i : String) (w : World F) (q : RegisterClientRequest) (peer : Peer)
    (served : World F × RegisterClientResponse) : Prop where
  foreign : normalizePeerIdentity peer.identity ≠ i →
    served.2.accepted = false ∧ Untouched w served.1 (registrationName q)
  own : normalizePeerIdentity peer.identity = i → served.2.accepted = true ∧ Renewed served.1 q

/-- The merge is without effect where nothing new is declared and the record has
an identity. -/
theorem merged_eq_iff {record c : PersistedClientRecord} (hnamed : record.peerIdentity ≠ "") :
    merged record c = c ↔ c.peerIdentity ≠ "" ∧ recordMetadata c = recordMetadata record := by
  constructor
  · intro h
    have hidentity := congrArg PersistedClientRecord.peerIdentity h
    have hmetadata : recordMetadata (merged record c) = recordMetadata c :=
      congrArg recordMetadata h
    refine ⟨?_, hmetadata.symm⟩
    intro hempty
    apply hnamed
    simpa [merged, hempty] using hidentity
  · rintro ⟨hc, hmetadata⟩
    obtain ⟨hsize, hhardware, hfingerprint⟩ : c.localDatasetSize = record.localDatasetSize ∧
        c.hardwareInfo = record.hardwareInfo ∧
        c.datasetFingerprint = record.datasetFingerprint := by
      simpa [recordMetadata] using hmetadata
    cases c
    simp_all [merged]

theorem serve_known {w : World F} {q : RegisterClientRequest} {i : String}
    (h : BoundTo w (registrationName q) i) {peer : Peer}
    (hpasses : ¬ rejectsRegisterClient q peer = true) (now : ℕ) :
    (serveRegisterClient w q peer now).2.accepted = false ∧
      (serveRegisterClient w q peer now).1.registry = w.registry ∧
      storedClient (serveRegisterClient w q peer now).1.store (registrationName q) =
        some (((storedClient w.store (registrationName q)).map
          (merged (clientRecord (clientInfo q peer (currentTimestamp now))))).getD
            (added (clientRecord (clientInfo q peer (currentTimestamp now))) now)) := by
  obtain ⟨known, hknown, -⟩ := Option.map_eq_some_iff.mp h.entry
  have hregister : register w.registry (clientInfo q peer (currentTimestamp now)) =
      (false, w.registry) := by
    have hlookup : w.registry.lookup (clientKey (clientInfo q peer (currentTimestamp now)).tenantId
        (clientInfo q peer (currentTimestamp now)).modelId
        (clientInfo q peer (currentTimestamp now)).clientId) = some known := hknown
    simp only [register, hlookup]
  have hrecorded := record_client w.store (clientRecord (clientInfo q peer (currentTimestamp now)))
    now (inNormalScope_normalize _ _) (registrationName q)
  have hname : registrationName q =
    recordName (clientRecord (clientInfo q peer (currentTimestamp now))) := rfl
  rw [if_pos hname] at hrecorded
  unfold serveRegisterClient
  rw [if_neg hpasses]
  dsimp only
  rw [hregister]
  refine ⟨rfl, rfl, ?_⟩
  rw [← hrecorded]
  unfold storedClient
  congr 1
  -- the audit event which follows leaves the clients
  have haudit : ∀ (s : StateStore) (e : PersistedAuditEvent),
      (perform s now (.recordAuditEvent e)).store.clients = s.clients := fun _ _ =>
    perform_clients_same (fun _ heq => by cases heq) (fun _ _ _ _ heq => by cases heq)
  exact haudit _ _

/-- Whoever registers a client again: the identity of its record, its first
registration and its last round are kept. -/
theorem serve_keepsOwner {w : World F} {q : RegisterClientRequest} {i : String}
    (h : BoundTo w (registrationName q) i) {c : PersistedClientRecord}
    (hc : storedClient w.store (registrationName q) = some c) (hnamed : c.peerIdentity ≠ "")
    (peer : Peer) (now : ℕ) : ∃ c',
      storedClient (serveRegisterClient w q peer now).1.store (registrationName q) = some c' ∧
      c'.peerIdentity = c.peerIdentity ∧ c'.registeredAt = c.registeredAt ∧
      c'.lastActiveRound = c.lastActiveRound := by
  by_cases hrejects : rejectsRegisterClient q peer = true
  · rw [serveRegisterClient, if_pos hrejects]
    exact ⟨c, hc, rfl, rfl, rfl⟩
  · refine ⟨_, (serve_known h hrejects now).2.2, ?_⟩
    rw [hc]
    refine ⟨?_, rfl, rfl⟩
    simp [merged, hnamed]

/-- A registration of a bound client is as it should be if and only if it comes from
another identity, and is rejected by the checks or declares what the record of
the client, which has an identity, says already. -/
theorem registration_respects_owner {w : World F} {q : RegisterClientRequest} {i : String}
    (h : BoundTo w (registrationName q) i) (peer : Peer) (now : ℕ) :
    RespectsOwner i w q peer (serveRegisterClient w q peer now) ↔
      normalizePeerIdentity peer.identity ≠ i ∧ (rejectsRegisterClient q peer = true ∨
        ∃ c, storedClient w.store (registrationName q) = some c ∧ c.peerIdentity ≠ "" ∧
          recordMetadata c = declared q) := by
  by_cases hrejects : rejectsRegisterClient q peer = true
  · have hserved : serveRegisterClient w q peer now = (w, {}) := by
      rw [serveRegisterClient, if_pos hrejects]
    rw [hserved]
    constructor
    · intro hrespects
      refine ⟨?_, .inl hrejects⟩
      intro hown
      have haccepted := (hrespects.own hown).1
      cases haccepted
    · rintro ⟨hforeign, -⟩
      exact ⟨fun _ => ⟨rfl, rfl, rfl⟩, fun hown => absurd hown hforeign⟩
  obtain ⟨hrefused, hregistry, hrecord⟩ := serve_known h hrejects now
  have hnamed : normalizePeerIdentity peer.identity ≠ "" := by
    intro hempty
    apply hrejects
    simp [rejectsRegisterClient, hempty]
  constructor
  · intro hrespects
    have hforeign : normalizePeerIdentity peer.identity ≠ i := by
      intro hown
      have haccepted := (hrespects.own hown).1
      rw [hrefused] at haccepted
      cases haccepted
    refine ⟨hforeign, .inr ?_⟩
    have hsame := (hrespects.foreign hforeign).2.record
    rw [hrecord] at hsame
    cases hc : storedClient w.store (registrationName q) with
    | none =>
      rw [hc] at hsame
      cases hsame
    | some c =>
      rw [hc] at hsame
      obtain ⟨hidentity, hmetadata⟩ := (merged_eq_iff hnamed).mp (Option.some.inj hsame)
      exact ⟨c, rfl, hidentity, hmetadata⟩
  · rintro ⟨hforeign, hstored⟩
    obtain ⟨c, hc, hidentity, hmetadata⟩ := hstored.resolve_left hrejects
    refine ⟨fun _ => ⟨hrefused, ?_, ?_⟩, fun hown => absurd hown hforeign⟩
    · rw [hregistry]
    · rw [hrecord, hc]
      exact congrArg some ((merged_eq_iff hnamed).mpr ⟨hidentity, hmetadata⟩)

def registeredServer : Option (Server Binary32) :=
  exec (Process.step standardDeployment) (registering "a" site)
    (initial standardDeployment firstStart)

def stranger : Peer := ⟨true, "stranger"⟩

def firstRequest : RegisterClientRequest := ⟨"t", "m", "a", 1, "", ""⟩

def largerRequest : RegisterClientRequest := ⟨"t", "m", "a", 5, "gpu", ""⟩

theorem registeredServer_isSome : registeredServer.isSome = true := by decide +kernel

def registeredWorld : World Binary32 := (registeredServer.get registeredServer_isSome).world

theorem registeredWorld_boundTo (q : RegisterClientRequest)
    (hname : registrationName q = registrationName firstRequest) :
    BoundTo registeredWorld (registrationName q) "site" := by
  rw [hname]
  exact ⟨by decide +kernel, by decide⟩

theorem registration_respects_owner_repeated : RespectsOwner "site" registeredWorld firstRequest
    stranger (serveRegisterClient registeredWorld firstRequest stranger 1) := by
  apply (registration_respects_owner (registeredWorld_boundTo firstRequest rfl) stranger 1).mpr
  refine ⟨by decide +kernel, .inr ?_⟩
  have htest : (storedClient registeredWorld.store (registrationName firstRequest)).any (fun c =>
      c.peerIdentity != "" && recordMetadata c == declared firstRequest) = true := by
    decide +kernel
  rw [Option.any_eq_true] at htest
  obtain ⟨c, hc, hfacts⟩ := htest
  simp only [Bool.and_eq_true, bne_iff_ne, beq_iff_eq] at hfacts
  exact ⟨c, hc, hfacts.1, hfacts.2⟩

/-- A stranger who declares more data is refused, and the record says what he
declared; the client itself is refused as well. -/
theorem foreign_registration_overwrites :
    Reaches (Process.step standardDeployment) Free (initial standardDeployment firstStart)
      (registeredServer.get registeredServer_isSome) ∧
    BoundTo registeredWorld (registrationName largerRequest) "site" ∧
    (serveRegisterClient registeredWorld largerRequest stranger 1).2.accepted = false ∧
    (storedClient registeredWorld.store (registrationName largerRequest)).map recordMetadata =
      some ⟨1, "", ""⟩ ∧
    (storedClient (serveRegisterClient registeredWorld largerRequest stranger 1).1.store
      (registrationName largerRequest)).map recordMetadata = some ⟨5, "gpu", ""⟩ ∧
    ¬ RespectsOwner "site" registeredWorld largerRequest stranger
      (serveRegisterClient registeredWorld largerRequest stranger 1) ∧
    (serveRegisterClient registeredWorld largerRequest site 1).2.accepted = false ∧
    ¬ RespectsOwner "site" registeredWorld largerRequest site
      (serveRegisterClient registeredWorld largerRequest site 1) := by
  have hbefore : (storedClient registeredWorld.store (registrationName largerRequest)).map
      recordMetadata = some ⟨1, "", ""⟩ := by decide +kernel
  have hafter : (storedClient (serveRegisterClient registeredWorld largerRequest stranger 1).1.store
      (registrationName largerRequest)).map recordMetadata = some ⟨5, "gpu", ""⟩ := by
    decide +kernel
  have hrefused : (serveRegisterClient registeredWorld largerRequest site 1).2.accepted = false := by
    decide +kernel
  refine ⟨exec_reaches _ (Option.some_get _).symm, registeredWorld_boundTo _ (by decide),
    by decide +kernel, hbefore, hafter, ?_, hrefused, ?_⟩
  · intro hrespects
    have hsame := (hrespects.foreign (by decide +kernel)).2.record
    rw [hsame, hbefore] at hafter
    exact absurd hafter (by decide)
  · intro hrespects
    have haccepted := (hrespects.own (by decide +kernel)).1
    rw [hrefused] at haccepted
    cases haccepted

end PqFl.ForeignRegistrations
