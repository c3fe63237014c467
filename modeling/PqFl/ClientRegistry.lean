import Mathlib.Data.List.AList
import PqFl.Identifiers

/-!
# The client registry

The map of `client_registry.cpp` from client keys to the certificate identity
a client registered with. Logging is left out.
-/

set_option autoImplicit false

namespace PqFl.ClientRegistry
open PqFl.Identifiers

structure ClientInfo where
  tenantId : String
  modelId : String
  clientId : String
  peerIdentity : String
  localDatasetSize : ℤ
  hardwareInfo : String
  datasetFingerprint : String
  registeredAt : String
  lastActiveRound : ℤ := -1
  deriving DecidableEq, Repr

abbrev Registry := AList (fun _ : String => ClientInfo)

def register (g : Registry) (info : ClientInfo) : Bool × Registry :=
  let key := clientKey info.tenantId info.modelId info.clientId
  match g.lookup key with
  | some _ => (false, g)
  | none => (true, g.insert key info)

def isRegistered (g : Registry) (tenantId modelId clientId : String) : Bool :=
  (g.lookup (clientKey tenantId modelId clientId)).isSome

def isRegisteredForPeer (g : Registry)
    (tenantId modelId clientId peerIdentity : String) : Bool :=
  match g.lookup (clientKey tenantId modelId clientId) with
  | none => false
  | some info => info.peerIdentity != "" && info.peerIdentity == peerIdentity

def bindPeerIdentityIfMissing (g : Registry)
    (tenantId modelId clientId peerIdentity : String) : Bool × Registry :=
  let key := clientKey tenantId modelId clientId
  match g.lookup key with
  | none => (false, g)
  | some info =>
    if info.peerIdentity = "" then
      (true, g.insert key { info with peerIdentity := peerIdentity })
    else (info.peerIdentity == peerIdentity, g)

def updateLastActiveRound (g : Registry) (tenantId modelId clientId : String) (round : ℤ) :
    Registry :=
  let key := clientKey tenantId modelId clientId
  match g.lookup key with
  | none => g
  | some info => g.insert key { info with lastActiveRound := max info.lastActiveRound round }

def boundIdentity (g : Registry) (key : String) : Option String :=
  (g.lookup key).map (·.peerIdentity)

theorem isRegistered_eq (g : Registry) (t m c : String) :
    isRegistered g t m c = (boundIdentity g (clientKey t m c)).isSome := by
  simp [isRegistered, boundIdentity]

theorem isRegisteredForPeer_eq (g : Registry) (t m c p : String) :
    isRegisteredForPeer g t m c p =
      (p != "" && boundIdentity g (clientKey t m c) == some p) := by
  unfold isRegisteredForPeer boundIdentity
  cases g.lookup (clientKey t m c) with
  | none => simp
  | some info =>
    by_cases h : info.peerIdentity = p
    · subst h; simp
    · simp [beq_eq_false_iff_ne.mpr h]

@[simp] theorem boundIdentity_insert (g : Registry) (key key' : String) (info : ClientInfo) :
    boundIdentity (g.insert key info) key' =
      if key' = key then some info.peerIdentity else boundIdentity g key' := by
  unfold boundIdentity
  by_cases h : key' = key
  · subst h; simp
  · simp [AList.lookup_insert_ne h, h]

theorem register_lookup (g : Registry) (info : ClientInfo) (key : String) :
    (register g info).2.lookup key =
      if key = clientKey info.tenantId info.modelId info.clientId ∧ g.lookup key = none then
        some info else g.lookup key := by
  unfold register
  dsimp only
  by_cases hkey : key = clientKey info.tenantId info.modelId info.clientId
  · subst hkey
    cases hlookup : g.lookup (clientKey info.tenantId info.modelId info.clientId) with
    | none => simp
    | some other => simp [hlookup]
  · rw [if_neg (fun h => hkey h.1)]
    cases g.lookup (clientKey info.tenantId info.modelId info.clientId) with
    | none => exact AList.lookup_insert_ne hkey
    | some other => rfl

theorem register_bindings (g : Registry) (info : ClientInfo) (key : String) :
    boundIdentity (register g info).2 key =
      if key = clientKey info.tenantId info.modelId info.clientId ∧ boundIdentity g key = none
      then some info.peerIdentity else boundIdentity g key := by
  have hnone : boundIdentity g key = none ↔ g.lookup key = none := Option.map_eq_none_iff
  simp only [hnone]
  rw [boundIdentity, register_lookup]
  split <;> rfl

theorem bindPeerIdentityIfMissing_bindings (g : Registry) (t m c p key : String) :
    boundIdentity (bindPeerIdentityIfMissing g t m c p).2 key =
      if key = clientKey t m c ∧ boundIdentity g key = some "" then some p
      else boundIdentity g key := by
  cases h : g.lookup (clientKey t m c) with
  | none =>
    have hn : boundIdentity g (clientKey t m c) = none := by simp [boundIdentity, h]
    by_cases hk : key = clientKey t m c
    · subst hk; simp [bindPeerIdentityIfMissing, h, hn]
    · simp [bindPeerIdentityIfMissing, h, hk]
  | some info =>
    have hs : boundIdentity g (clientKey t m c) = some info.peerIdentity := by
      simp [boundIdentity, h]
    by_cases hk : key = clientKey t m c
    · subst hk
      by_cases hp : info.peerIdentity = ""
      · simp [bindPeerIdentityIfMissing, h, hp, hs]
      · simp [bindPeerIdentityIfMissing, h, hp, hs]
    · by_cases hp : info.peerIdentity = ""
      · simp [bindPeerIdentityIfMissing, h, hp, hk]
      · simp [bindPeerIdentityIfMissing, h, hp, hk]

@[simp] theorem updateLastActiveRound_bindings (g : Registry) (t m c : String) (r : ℤ)
    (key : String) : boundIdentity (updateLastActiveRound g t m c r) key = boundIdentity g key := by
  cases h : g.lookup (clientKey t m c) with
  | none => simp [updateLastActiveRound, h]
  | some info =>
    by_cases hk : key = clientKey t m c
    · subst hk; simp [updateLastActiveRound, boundIdentity, h]
    · simp [updateLastActiveRound, h, hk]

end PqFl.ClientRegistry
