import Mathlib.Data.List.Find
import PqFl.ServerStore

/-!
# The two bindings of a client

A client is bound to a certificate identity by its entry in the registry and by
its record in the store. A restart rebuilds the registry from the records, the
first record of a name before the others.
-/

set_option autoImplicit false

namespace PqFl.CertificateBinding
open PqFl.Identifiers PqFl.StoreRecords PqFl.StateStore PqFl.ClientRegistry PqFl.ListUpdate
open PqFl.Services PqFl.Process PqFl.StoreRuns

structure ClientName where
  tenantId : String
  modelId : String
  clientId : String
  deriving DecidableEq

def ClientName.key (n : ClientName) : String := clientKey n.tenantId n.modelId n.clientId

/-- A name of a normal scope, with no colon where the key could be misread. -/
structure ClientName.Plain (n : ClientName) : Prop where
  scope : InNormalScope n.tenantId n.modelId
  model : ':' ∉ n.modelId.toList
  client : ':' ∉ n.clientId.toList

theorem ClientName.Plain.key_inj {n n' : ClientName} (h : n.Plain) (h' : n'.Plain)
    (hkey : n.key = n'.key) : n = n' := by
  obtain ⟨hscope, hclient⟩ := clientKey_inj h.client h'.client hkey
  obtain ⟨htenant, hmodel⟩ := scopeKey_inj h.model h'.model hscope
  rw [h.scope.1, h'.scope.1] at htenant
  rw [h.scope.2, h'.scope.2] at hmodel
  cases n
  cases n'
  simp_all

def recordName (c : PersistedClientRecord) : ClientName := ⟨c.tenantId, c.modelId, c.clientId⟩

def infoName (info : ClientInfo) : ClientName := ⟨info.tenantId, info.modelId, info.clientId⟩

def workerName (q : WorkerRegistration) : ClientName :=
  ⟨normalizeTenant q.tenantId, normalizeModel q.modelId, trainerClientId q⟩

theorem isClient_iff {n : ClientName} {c : PersistedClientRecord} :
    isClient n.tenantId n.modelId n.clientId c = true ↔ recordName c = n := by
  cases n
  simp [isClient, recordName, and_assoc]

def storedClient (store : StateStore) (n : ClientName) : Option PersistedClientRecord :=
  store.clients.find? (isClient n.tenantId n.modelId n.clientId)

def recordIdentity (store : StateStore) (n : ClientName) : Option String :=
  (store.clients.find? (isClient n.tenantId n.modelId n.clientId)).map (·.peerIdentity)

def storedIdentity (store : StateStore) (n : ClientName) : String :=
  (recordIdentity store n).getD ""

def clientBindings (store : StateStore) : List (ClientName × String) :=
  store.clients.map (fun c => (recordName c, c.peerIdentity))

theorem recordIdentity_eq (store : StateStore) (n : ClientName) : recordIdentity store n =
    ((clientBindings store).find? (fun b => b.1 == n)).map (·.2) := by
  rw [recordIdentity, clientBindings, List.find?_map, Option.map_map]
  have hsame : isClient n.tenantId n.modelId n.clientId =
      (fun b : ClientName × String => b.1 == n) ∘ fun c => (recordName c, c.peerIdentity) := by
    ext c
    rw [Bool.eq_iff_iff, isClient_iff]
    simp
  rw [hsame]
  rfl

theorem recordIdentity_congr {x y : StateStore} (h : clientBindings y = clientBindings x)
    (n : ClientName) : recordIdentity y n = recordIdentity x n := by
  rw [recordIdentity_eq, recordIdentity_eq, h]

theorem forall_clientBindings {P : ClientName → String → Prop} {x y : StateStore}
    (hsame : clientBindings y = clientBindings x)
    (h : ∀ c ∈ x.clients, P (recordName c) c.peerIdentity) :
    ∀ c ∈ y.clients, P (recordName c) c.peerIdentity := by
  intro c hc
  have hmem : (recordName c, c.peerIdentity) ∈ clientBindings y := List.mem_map.mpr ⟨c, hc, rfl⟩
  rw [hsame] at hmem
  obtain ⟨c', hc', he⟩ := List.mem_map.mp hmem
  rw [← (Prod.mk.inj he).1, ← (Prod.mk.inj he).2]
  exact h c' hc'

def merged (record c : PersistedClientRecord) : PersistedClientRecord := { c with
  peerIdentity :=
    if c.peerIdentity == "" && record.peerIdentity != "" then record.peerIdentity
    else c.peerIdentity
  localDatasetSize := record.localDatasetSize
  hardwareInfo := record.hardwareInfo
  datasetFingerprint := record.datasetFingerprint }

def added (record : PersistedClientRecord) (now : ℕ) : PersistedClientRecord := { record with
  registeredAt :=
    if record.registeredAt = "" then Timestamps.currentTimestamp now else record.registeredAt }

/-- A registration merges into the record of its client or adds it, and leaves the
records of the other clients. -/
theorem record_client (store : StateStore) (record : PersistedClientRecord) (now : ℕ)
    (hscope : InNormalScope record.tenantId record.modelId) (n : ClientName) :
    storedClient (recordClientRegistration store record now).store n =
      if n = recordName record then
        some (((storedClient store n).map (merged record)).getD (added record now))
      else storedClient store n := by
  obtain ⟨ht, hm⟩ := hscope
  unfold storedClient recordClientRegistration
  dsimp only
  rw [ht, hm]
  set known := isClient record.tenantId record.modelId record.clientId with hknown
  have hname : ∀ c, known c = true ↔ recordName c = recordName record := fun c =>
    isClient_iff (n := recordName record)
  have hmerged : ∀ c, known c = true → known (merged record c) = true := fun c hc => hc
  have hadded : known (added record now) = true := (hname _).mpr rfl
  by_cases hn : n = recordName record
  · subst hn
    rw [if_pos rfl]
    show List.find? known _ = some (((store.clients.find? known).map _).getD _)
    cases hfound : store.clients.find? known with
    | none =>
      have hany : ¬ store.clients.any known = true := by
        rw [← List.isSome_find?, hfound]
        decide
      rw [if_neg hany, List.find?_append, hfound]
      exact List.find?_cons_of_pos hadded
    | some c =>
      have hany : store.clients.any known = true := by
        rw [← List.isSome_find?, hfound]
        rfl
      rw [if_pos hany]
      show (updateFirst known (merged record) store.clients).find? known = _
      rw [find?_updateFirst hmerged, hfound]
      rfl
  · rw [if_neg hn]
    have hother : ∀ c, known c = true → isClient n.tenantId n.modelId n.clientId c = false := by
      intro c hc
      rw [Bool.eq_false_iff]
      intro hclient
      exact hn ((isClient_iff.mp hclient).symm.trans ((hname c).mp hc))
    by_cases hany : store.clients.any known = true
    · rw [if_pos hany, find?_updateFirst_other]
      intro c hc
      exact ⟨hother c hc, hother c hc⟩
    · rw [if_neg hany, List.find?_append]
      have hnew := List.find?_cons_of_neg (l := []) (Bool.eq_false_iff.mp (hother _ hadded))
      exact (congrArg _ hnew).trans Option.or_none

theorem record_identity (store : StateStore) (record : PersistedClientRecord) (now : ℕ)
    (hscope : InNormalScope record.tenantId record.modelId) (n : ClientName) :
    recordIdentity (recordClientRegistration store record now).store n =
      if n = recordName record then
        some (if storedIdentity store n = "" then record.peerIdentity else storedIdentity store n)
      else recordIdentity store n := by
  have hidentity : ∀ x, recordIdentity x n = (storedClient x n).map (·.peerIdentity) :=
    fun _ => rfl
  rw [storedIdentity, hidentity, hidentity, record_client store record now hscope n]
  by_cases hn : n = recordName record
  · rw [if_pos hn, if_pos hn]
    cases storedClient store n with
    | none => rfl
    | some c =>
      by_cases hempty : c.peerIdentity = ""
      · by_cases hrecord : record.peerIdentity = ""
        · simp [merged, hempty, hrecord]
        · simp [merged, hempty, hrecord]
      · simp [merged, hempty]
  · rw [if_neg hn, if_neg hn]

theorem record_names {P : ClientName → Prop} {store : StateStore}
    (h : ∀ c ∈ store.clients, P (recordName c)) {record : PersistedClientRecord} {now : ℕ}
    (hscope : InNormalScope record.tenantId record.modelId) (hrecord : P (recordName record)) :
    ∀ c ∈ (recordClientRegistration store record now).store.clients, P (recordName c) := by
  obtain ⟨ht, hm⟩ := hscope
  unfold recordClientRegistration
  dsimp only
  rw [ht, hm]
  split
  · exact forall_updateFirst h (fun _ hc => hc)
  · exact forall_append_one h hrecord

theorem perform_clientBindings {store : StateStore} {now : ℕ} {op : Operation}
    (hrecord : ∀ record, op ≠ .recordClientRegistration record) :
    clientBindings (perform store now op).store = clientBindings store := by
  by_cases hround : ∃ t m c round, op = .updateClientLastRound t m c round
  · obtain ⟨t, m, c, round, rfl⟩ := hround
    refine map_updateFirst ?_ _
    intro x _
    rfl
  · push Not at hround
    rw [clientBindings, perform_clients_same hrecord hround]
    rfl

theorem loadRegistry_bindings (clients : List PersistedClientRecord) (g : Registry) (key : String) :
    boundIdentity (clients.foldl (fun g c => (register g (registryEntry c)).2) g) key =
      (boundIdentity g key).or
        ((clients.find? (fun c => (recordName c).key == key)).map (·.peerIdentity)) := by
  induction clients generalizing g with
  | nil => simp
  | cons c clients ih =>
    rw [List.foldl_cons, ih, register_bindings]
    by_cases hkey : (recordName c).key = key
    · subst hkey
      cases hbound : boundIdentity g (recordName c).key with
      | none =>
        have hadds : (recordName c).key = clientKey (registryEntry c).tenantId
            (registryEntry c).modelId (registryEntry c).clientId ∧
            (none : Option String) = none := ⟨rfl, rfl⟩
        rw [if_pos hadds, List.find?_cons_of_pos (by simp)]
        rfl
      | some i => simp
    · rw [if_neg (fun h => hkey h.1.symm), List.find?_cons_of_neg (by simpa using hkey)]

theorem loadRegistry_identity {store : StateStore} (h : ∀ c ∈ store.clients, (recordName c).Plain)
    {n : ClientName} (hn : n.Plain) :
    boundIdentity (loadRegistry store.clients) n.key = recordIdentity store n := by
  have hempty : boundIdentity ∅ n.key = none := rfl
  rw [loadRegistry, loadRegistry_bindings, hempty, Option.none_or, recordIdentity]
  congr 1
  apply List.find?_congr
  intro c hc
  rw [Bool.eq_iff_iff, isClient_iff, beq_iff_eq]
  constructor
  · exact fun hkey => (h c hc).key_inj hn hkey
  · exact fun hname => by rw [hname]

end PqFl.CertificateBinding
