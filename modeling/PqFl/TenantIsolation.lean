import PqFl.Binary32
import PqFl.ClientRegistry
import PqFl.WeightBuffer

/-!
# Tenant isolation

The buffer and the registry are shared by all scopes; what keeps the scopes
apart are the string keys of their maps. Colons are legal in identifiers, so
the client keys of two scopes can coincide. They do exactly when the prefix of
one scope's client keys extends the other's by less than an identifier.
-/

set_option autoImplicit false

namespace PqFl.TenantIsolation
open PqFl.Identifiers PqFl.SeparatedKeys PqFl.StoreRecords PqFl.ClientRegistry PqFl.Crypto
open PqFl.Aggregation PqFl.Buffer PqFl.Floats

variable {F : Type}

structure Objects (F : Type) where
  buffer : WeightBuffer F
  registry : Registry

/-- Nothing that can be asked about a scope has another answer. -/
structure SameView (tenantId modelId : String) (s s' : Objects F) : Prop where
  isRoundCompleted : ∀ round, isRoundCompleted s'.buffer tenantId modelId round =
    isRoundCompleted s.buffer tenantId modelId round
  hasClientSubmission : ∀ round clientId,
    validateFederatedRequestIds tenantId modelId clientId = "" →
    hasClientSubmission s'.buffer tenantId modelId round clientId =
      hasClientSubmission s.buffer tenantId modelId round clientId
  getNumClients : ∀ round, getNumClients s'.buffer tenantId modelId round =
    getNumClients s.buffer tenantId modelId round
  getLatestGlobalModel : getLatestGlobalModel s'.buffer tenantId modelId =
    getLatestGlobalModel s.buffer tenantId modelId
  isRegistered : ∀ clientId, validateFederatedRequestIds tenantId modelId clientId = "" →
    isRegistered s'.registry tenantId modelId clientId =
      isRegistered s.registry tenantId modelId clientId
  isRegisteredForPeer : ∀ clientId peerIdentity,
    validateFederatedRequestIds tenantId modelId clientId = "" →
    isRegisteredForPeer s'.registry tenantId modelId clientId peerIdentity =
      isRegisteredForPeer s.registry tenantId modelId clientId peerIdentity

theorem sameView_of_buffer {t m : String} {s s' : Objects F} (hreg : s'.registry = s.registry)
    (hcompleted : ∀ r, roundKey t m r ∈ s'.buffer.completedRounds ↔
      roundKey t m r ∈ s.buffer.completedRounds)
    (hpending : ∀ r, submissions s'.buffer (roundKey t m r) = submissions s.buffer (roundKey t m r))
    (hlatest : s'.buffer.latestModels.lookup (scopeKey t m) =
      s.buffer.latestModels.lookup (scopeKey t m)) : SameView t m s s' where
  isRoundCompleted r := by simp [isRoundCompleted, hcompleted r]
  hasClientSubmission r c _ := by rw [hasClientSubmission_eq, hasClientSubmission_eq, hpending r]
  getNumClients r := by rw [getNumClients_eq, getNumClients_eq, hpending r]
  getLatestGlobalModel := by rw [getLatestGlobalModel, getLatestGlobalModel, hlatest]
  isRegistered c _ := by rw [hreg]
  isRegisteredForPeer c p _ := by rw [hreg]

theorem sameView_of_registry {t m : String} {s s' : Objects F} (hbuf : s'.buffer = s.buffer)
    (hbound : ∀ c, validateFederatedRequestIds t m c = "" →
      boundIdentity s'.registry (clientKey t m c) = boundIdentity s.registry (clientKey t m c)) :
    SameView t m s s' where
  isRoundCompleted r := by rw [hbuf]
  hasClientSubmission r c _ := by rw [hbuf]
  getNumClients r := by rw [hbuf]
  getLatestGlobalModel := by rw [hbuf]
  isRegistered c hc := by rw [isRegistered_eq, isRegistered_eq, hbound c hc]
  isRegisteredForPeer c p hc := by
    rw [isRegisteredForPeer_eq, isRegisteredForPeer_eq, hbound c hc]

variable [FloatArith F]

/-- What a request may do to the two shared objects in its scope. -/
inductive Operation (F : Type) where
  | addWeightAndCheckAggregate (P : Primitives) (cfg : AggregationConfig F) (e : CryptoEngine)
      (files : CheckpointFiles) (store : StateStore) (clientId : String)
      (round datasetSize : ℤ) (weights : List F) (requiredClients : ℕ) (draw : Draw F) (now : ℕ)
  | restoreLatestGlobalModel (round modelVersion : ℤ) (weights : List F)
  | register (info : ClientInfo)
  | bindPeerIdentityIfMissing (clientId peerIdentity : String)
  | updateLastActiveRound (clientId : String) (round : ℤ)

/-- The client an operation names, which the handlers validate with the scope. -/
def Operation.client? : Operation F → Option String
  | .addWeightAndCheckAggregate _ _ _ _ _ clientId _ _ _ _ _ _ => some clientId
  | .restoreLatestGlobalModel _ _ _ => none
  | .register info => some info.clientId
  | .bindPeerIdentityIfMissing clientId _ => some clientId
  | .updateLastActiveRound clientId _ => some clientId

def perform (tenantId modelId : String) (s : Objects F) : Operation F → Objects F
  | .addWeightAndCheckAggregate P cfg e files store clientId round datasetSize weights
      requiredClients draw now =>
    let q : Submission F := ⟨tenantId, modelId, clientId, round, datasetSize, weights,
      requiredClients⟩
    { s with buffer := (addWeightAndCheckAggregate P cfg e files store s.buffer q draw now).1 }
  | .restoreLatestGlobalModel round modelVersion weights =>
    let buffer := restoreLatestGlobalModel s.buffer tenantId modelId round modelVersion weights
    { s with buffer := buffer }
  | .register info =>
    let info := { info with tenantId := tenantId, modelId := modelId }
    { s with registry := (register s.registry info).2 }
  | .bindPeerIdentityIfMissing clientId peerIdentity =>
    let bound := bindPeerIdentityIfMissing s.registry tenantId modelId clientId peerIdentity
    { s with registry := bound.2 }
  | .updateLastActiveRound clientId round =>
    { s with registry := updateLastActiveRound s.registry tenantId modelId clientId round }

/-- No operation with valid identifiers in the first scope changes the view of
the second, in whatever state. -/
def Isolated (F : Type) [FloatArith F] (t₁ m₁ t₂ m₂ : String) : Prop :=
  ∀ op : Operation F, (∀ c, op.client? = some c → validateFederatedRequestIds t₁ m₁ c = "") →
    ∀ s : Objects F, SameView t₂ m₂ s (perform t₁ m₁ s op)

def clientPrefix (tenantId modelId : String) : List Char :=
  (scopeKey tenantId modelId ++ "::client:").toList

/-- One prefix extends the other by less than the longest identifier. -/
def keysOverlap (t₁ m₁ t₂ m₂ : String) : Prop :=
  (clientPrefix t₁ m₁ <+: clientPrefix t₂ m₂ ∧
    (clientPrefix t₂ m₂).length < (clientPrefix t₁ m₁).length + 128) ∨
  (clientPrefix t₂ m₂ <+: clientPrefix t₁ m₁ ∧
    (clientPrefix t₁ m₁).length < (clientPrefix t₂ m₂).length + 128)

instance (t₁ m₁ t₂ m₂ : String) : Decidable (keysOverlap t₁ m₁ t₂ m₂) :=
  inferInstanceAs (Decidable (_ ∨ _))

theorem clientKey_toList (t m c : String) :
    (clientKey t m c).toList = clientPrefix t m ++ c.toList := by
  simp [clientKey, clientPrefix]

theorem clientPrefix_allowed {t m c : String} (h : validateFederatedRequestIds t m c = "") :
    (clientPrefix t m).all isAllowedIdentifierChar = true := by
  obtain ⟨ht, hm, -⟩ := validateFederatedRequestIds_eq_empty.mp h
  have hnt := normalizeTenant_allowed ht.2
  have hnm := normalizeModel_allowed hm.2
  have hsep : "::".toList.all isAllowedIdentifierChar = true := by decide
  have hclient : "::client:".toList.all isAllowedIdentifierChar = true := by decide
  simp only [clientPrefix, scopeKey, String.toList_append, List.all_append, hnt, hnm, hsep, hclient,
    Bool.and_self]

theorem keys_meet_of_prefix {t₁ m₁ t₂ m₂ c : String}
    (h₁ : validateFederatedRequestIds t₁ m₁ c = "") (h₂ : validateFederatedRequestIds t₂ m₂ c = "")
    (hp : clientPrefix t₁ m₁ <+: clientPrefix t₂ m₂)
    (hlen : (clientPrefix t₂ m₂).length < (clientPrefix t₁ m₁).length + 128) :
    ∃ c₁ c₂, validateFederatedRequestIds t₁ m₁ c₁ = "" ∧
      validateFederatedRequestIds t₂ m₂ c₂ = "" ∧ clientKey t₁ m₁ c₁ = clientKey t₂ m₂ c₂ := by
  obtain ⟨w, hw⟩ := hp
  have hall := clientPrefix_allowed h₂
  rw [← hw, List.all_append, Bool.and_eq_true] at hall
  have hwlen : w.length < 128 := by
    rw [← hw, List.length_append] at hlen
    omega
  obtain ⟨ht₁, hm₁, -⟩ := validateFederatedRequestIds_eq_empty.mp h₁
  obtain ⟨ht₂, hm₂, -⟩ := validateFederatedRequestIds_eq_empty.mp h₂
  refine ⟨String.ofList (w ++ ['x']), "x", ?_, ?_, ?_⟩
  · refine validateFederatedRequestIds_eq_empty.mpr ⟨ht₁, hm₁, ?_, ?_, ?_⟩
    · intro h
      have := congrArg String.toList h
      simp at this
    · rw [String.toList_ofList, List.length_append, List.length_singleton]
      omega
    · rw [String.toList_ofList, List.all_append, hall.2]
      decide
  · exact validateFederatedRequestIds_eq_empty.mpr ⟨ht₂, hm₂, by decide, by decide, by decide⟩
  · apply String.toList_inj.mp
    rw [clientKey_toList, clientKey_toList, String.toList_ofList, ← hw, List.append_assoc]
    rfl

theorem prefix_of_keys_meet {t₁ m₁ t₂ m₂ c₁ c₂ : String} {w : List Char}
    (h₁ : validateFederatedRequestIds t₁ m₁ c₁ = "") (h₂ : validateFederatedRequestIds t₂ m₂ c₂ = "")
    (hw : clientPrefix t₂ m₂ = clientPrefix t₁ m₁ ++ w) (hc : c₁.toList = w ++ c₂.toList) :
    keysOverlap t₁ m₁ t₂ m₂ := by
  obtain ⟨-, -, -, hlen₁, -⟩ := validateFederatedRequestIds_eq_empty.mp h₁
  obtain ⟨-, -, hne₂, -⟩ := validateFederatedRequestIds_eq_empty.mp h₂
  have hpos : 0 < c₂.toList.length :=
    List.length_pos_iff.mpr (fun h => hne₂ (String.toList_inj.mp h))
  rw [hc, List.length_append] at hlen₁
  refine .inl ⟨⟨w, hw.symm⟩, ?_⟩
  rw [hw, List.length_append]
  omega

theorem keysOverlap_symm {t₁ m₁ t₂ m₂ : String} (h : keysOverlap t₁ m₁ t₂ m₂) :
    keysOverlap t₂ m₂ t₁ m₁ := Or.symm h

theorem keysOverlap_iff {t₁ m₁ t₂ m₂ c : String} (h₁ : validateFederatedRequestIds t₁ m₁ c = "")
    (h₂ : validateFederatedRequestIds t₂ m₂ c = "") : keysOverlap t₁ m₁ t₂ m₂ ↔
      ∃ c₁ c₂, validateFederatedRequestIds t₁ m₁ c₁ = "" ∧
        validateFederatedRequestIds t₂ m₂ c₂ = "" ∧ clientKey t₁ m₁ c₁ = clientKey t₂ m₂ c₂ := by
  constructor
  · rintro (⟨hp, hlen⟩ | ⟨hp, hlen⟩)
    · exact keys_meet_of_prefix h₁ h₂ hp hlen
    · obtain ⟨c₂, c₁, hv₂, hv₁, hkey⟩ := keys_meet_of_prefix h₂ h₁ hp hlen
      exact ⟨c₁, c₂, hv₁, hv₂, hkey.symm⟩
  · rintro ⟨c₁, c₂, hv₁, hv₂, hkey⟩
    have hl := congrArg String.toList hkey
    rw [clientKey_toList, clientKey_toList] at hl
    rcases List.append_eq_append_iff.mp hl with ⟨w, hw, hc⟩ | ⟨w, hw, hc⟩
    · exact prefix_of_keys_meet hv₁ hv₂ hw hc
    · exact keysOverlap_symm (prefix_of_keys_meet hv₂ hv₁ hw hc)

theorem keysOverlap_of_scopeKey_eq {t₁ m₁ t₂ m₂ : String} (h : scopeKey t₁ m₁ = scopeKey t₂ m₂) :
    keysOverlap t₁ m₁ t₂ m₂ := by
  have hp : clientPrefix t₁ m₁ = clientPrefix t₂ m₂ := by rw [clientPrefix, clientPrefix, h]
  exact .inl ⟨by rw [hp], by rw [hp]; omega⟩

theorem addWeightAndCheckAggregate_elsewhere (P : Primitives) (cfg : AggregationConfig F)
    (e : CryptoEngine) (files : CheckpointFiles) (store : StateStore) (b : WeightBuffer F)
    (q : Submission F) (draw : Draw F) (now : ℕ) {b' : WeightBuffer F}
    (hb' : b' = (addWeightAndCheckAggregate P cfg e files store b q draw now).1) :
    (∀ key, key ≠ roundKey q.tenantId q.modelId q.round →
      (key ∈ b'.completedRounds ↔ key ∈ b.completedRounds) ∧
        submissions b' key = submissions b key) ∧
    (∀ scope, scope ≠ scopeKey q.tenantId q.modelId →
      b'.latestModels.lookup scope = b.latestModels.lookup scope) := by
  have hsame := (addWeight_added P cfg e files b q draw).sameBut
  subst hb'
  unfold addWeightAndCheckAggregate
  generalize addWeight P cfg e files b q draw = added at *
  obtain ⟨b', files', attempt⟩ := added
  cases attempt with
  | returned outcome =>
    refine ⟨fun key hk => ⟨by rw [hsame.completed], hsame.others key hk⟩, fun scope _ => ?_⟩
    rw [hsame.latest]
  | prepared p =>
    refine ⟨fun key hk => ⟨?_, hsame.others key hk⟩, fun scope hs => ?_⟩
    · show key ∈ insert _ b'.completedRounds ↔ _
      rw [Finset.mem_insert, hsame.completed]
      simp [hk]
    · show (b'.latestModels.insert _ _).lookup scope = _
      rw [AList.lookup_insert_ne hs, hsame.latest]

theorem isolated_of_not_overlap {t₁ m₁ t₂ m₂ c : String}
    (h₁ : validateFederatedRequestIds t₁ m₁ c = "") (h₂ : validateFederatedRequestIds t₂ m₂ c = "")
    (h : ¬ keysOverlap t₁ m₁ t₂ m₂) : Isolated F t₁ m₁ t₂ m₂ := by
  have hscope : scopeKey t₂ m₂ ≠ scopeKey t₁ m₁ :=
    fun he => h (keysOverlap_of_scopeKey_eq he.symm)
  have hround : ∀ r r', roundKey t₂ m₂ r' ≠ roundKey t₁ m₁ r :=
    fun r r' he => hscope (roundKey_inj he).1
  have hclient : ∀ c₁ c₂, validateFederatedRequestIds t₁ m₁ c₁ = "" →
      validateFederatedRequestIds t₂ m₂ c₂ = "" → clientKey t₂ m₂ c₂ ≠ clientKey t₁ m₁ c₁ :=
    fun c₁ c₂ hc₁ hc₂ he => h ((keysOverlap_iff h₁ h₂).mpr ⟨c₁, c₂, hc₁, hc₂, he.symm⟩)
  intro op hop s
  cases op with
  | addWeightAndCheckAggregate P cfg e files store clientId round datasetSize weights
      requiredClients draw now =>
    obtain ⟨hkeys, hlatest⟩ := addWeightAndCheckAggregate_elsewhere P cfg e files store s.buffer
      ⟨t₁, m₁, clientId, round, datasetSize, weights, requiredClients⟩ draw now rfl
    exact sameView_of_buffer rfl (fun r => (hkeys _ (hround _ r)).1)
      (fun r => (hkeys _ (hround _ r)).2) (hlatest _ hscope)
  | restoreLatestGlobalModel round modelVersion weights =>
    exact sameView_of_buffer rfl (fun _ => Iff.rfl) (fun _ => rfl) (AList.lookup_insert_ne hscope)
  | register info =>
    refine sameView_of_registry rfl (fun c₂ hc₂ => ?_)
    have hne := hclient info.clientId c₂ (hop _ rfl) hc₂
    rw [perform, register_bindings, if_neg (fun hk => hne hk.1)]
  | bindPeerIdentityIfMissing clientId peerIdentity =>
    refine sameView_of_registry rfl (fun c₂ hc₂ => ?_)
    have hne := hclient clientId c₂ (hop _ rfl) hc₂
    rw [perform, bindPeerIdentityIfMissing_bindings, if_neg (fun hk => hne hk.1)]
  | updateLastActiveRound clientId round =>
    refine sameView_of_registry rfl (fun c₂ _ => ?_)
    rw [perform, updateLastActiveRound_bindings]

theorem not_isolated_of_overlap {t₁ m₁ t₂ m₂ c : String}
    (h₁ : validateFederatedRequestIds t₁ m₁ c = "") (h₂ : validateFederatedRequestIds t₂ m₂ c = "")
    (h : keysOverlap t₁ m₁ t₂ m₂) : ¬ Isolated F t₁ m₁ t₂ m₂ := by
  obtain ⟨c₁, c₂, hc₁, hc₂, hkey⟩ := (keysOverlap_iff h₁ h₂).mp h
  intro hiso
  let info : ClientInfo := ⟨t₁, m₁, c₁, "peer", 1, "", "", "", -1⟩
  have hview := (hiso (.register info) (fun c hc => by cases hc; exact hc₁)
    ⟨emptyBuffer, ∅⟩).isRegistered c₂ hc₂
  rw [isRegistered_eq, isRegistered_eq, ← hkey, perform, register_bindings] at hview
  have hnone : boundIdentity ∅ (clientKey t₁ m₁ c₁) = none := rfl
  simp [info, hnone] at hview

/-- Exactly the scopes whose client keys do not overlap are isolated. -/
theorem isolated_iff_not_keysOverlap {t₁ m₁ t₂ m₂ c : String}
    (h₁ : validateFederatedRequestIds t₁ m₁ c = "")
    (h₂ : validateFederatedRequestIds t₂ m₂ c = "") :
    Isolated F t₁ m₁ t₂ m₂ ↔ ¬ keysOverlap t₁ m₁ t₂ m₂ :=
  ⟨fun hiso h => not_isolated_of_overlap h₁ h₂ h hiso, isolated_of_not_overlap h₁ h₂⟩

theorem isolated_iff_hospitals : Isolated Binary32 "hospital" "scan" "clinic" "scan" ↔
    ¬ keysOverlap "hospital" "scan" "clinic" "scan" :=
  isolated_iff_not_keysOverlap (c := "a") (by decide) (by decide)

/-- Different scopes of valid identifiers which are not isolated: a colon moves
from the tenant to the model, or a model contains the client separator. -/
theorem colon_scopes_not_isolated :
    (validateFederatedRequestIds "a::b" "c" "x" = "" ∧
      validateFederatedRequestIds "a" "b::c" "x" = "" ∧
      normalizeTenant "a::b" ≠ normalizeTenant "a" ∧
      ¬ Isolated Binary32 "a::b" "c" "a" "b::c") ∧
    (validateFederatedRequestIds "a" "b" "x" = "" ∧
      validateFederatedRequestIds "a" "b::client:x" "x" = "" ∧
      normalizeModel "b" ≠ normalizeModel "b::client:x" ∧
      ¬ Isolated Binary32 "a" "b" "a" "b::client:x") :=
  ⟨⟨by decide, by decide, by decide,
      not_isolated_of_overlap (c := "x") (by decide) (by decide) (by decide)⟩,
    ⟨by decide, by decide, by decide,
      not_isolated_of_overlap (c := "x") (by decide) (by decide) (by decide)⟩⟩

end PqFl.TenantIsolation
