import Mathlib.Data.List.DropRight
import PqFl.CertificateBinding

/-!
# Peer identities

The normal form of an identity has no blanks around it and no prefix, but only
one prefix is taken away, and blanks behind it stay. So the normal form of a
normal form may be another one. The server takes it once: of the caller, of the
entries of the allowlists, and of what it stores.
-/

set_option autoImplicit false

namespace PqFl.PeerIdentities
open PqFl.Identifiers PqFl.StoreRecords PqFl.StateStore PqFl.ClientRegistry PqFl.ListUpdate
open PqFl.Services PqFl.Process PqFl.ServerStore PqFl.CertificateBinding PqFl.Runs
open PqFl.Aggregation PqFl.Configuration PqFl.Floats

theorem trim_eq (l : List Char) : trim l = (l.dropWhile isSpace).rdropWhile isSpace := rfl

theorem trim_length_le (l : List Char) : (trim l).length ≤ l.length := by
  rw [trim_eq]
  exact (List.rdropWhile_prefix _ _).length_le.trans (List.dropWhile_suffix _).length_le

theorem trim_last {l : List Char} {c : Char} (h : c ∈ (trim l).getLast?) : isSpace c = false := by
  have hne : trim l ≠ [] := by
    intro hnil
    rw [hnil] at h
    cases h
  rw [List.getLast?_eq_getLast_of_ne_nil hne, Option.mem_some_iff] at h
  rw [← h]
  exact Bool.eq_false_iff.mpr (List.rdropWhile_last_not _ _ hne)

theorem trim_self {l : List Char} (hfirst : ∀ c ∈ l.head?, isSpace c = false)
    (hlast : ∀ c ∈ l.getLast?, isSpace c = false) : trim l = l := by
  have hstart : l.dropWhile isSpace = l := by
    cases l with
    | nil => rfl
    | cons c l => exact List.dropWhile_cons_of_neg (Bool.eq_false_iff.mp (hfirst c rfl))
  rw [trim_eq, hstart, List.rdropWhile_eq_self_iff]
  intro hne
  exact Bool.eq_false_iff.mp (hlast _ (List.getLast?_eq_getLast_of_ne_nil hne))

theorem trim_blank {c : Char} (hc : isSpace c = true) (l : List Char) :
    (trim (c :: l)).length < (c :: l).length := by
  have hsame : trim (c :: l) = trim l := by
    rw [trim_eq, trim_eq, List.dropWhile_cons_of_pos hc]
  rw [hsame]
  exact Nat.lt_succ_of_le (trim_length_le l)

/-- What is left behind the prefix, if there is one. -/
def withoutPrefix (l : List Char) : List Char :=
  if "/CN=".toList.isPrefixOf l then l.drop 4
  else if "CN=".toList.isPrefixOf l then l.drop 3
  else l

theorem normalizePeerIdentity_toList (value : String) :
    (normalizePeerIdentity value).toList = withoutPrefix (trim value.toList) := by
  unfold normalizePeerIdentity withoutPrefix
  dsimp only
  split
  · rw [String.toList_ofList]
  · split
    · rw [String.toList_ofList]
    · rw [String.toList_ofList]

theorem withoutPrefix_suffix (l : List Char) : withoutPrefix l <:+ l := by
  unfold withoutPrefix
  split
  · exact List.drop_suffix 4 l
  · split
    · exact List.drop_suffix 3 l
    · exact List.suffix_refl l

/-- Normalising the text again would change it: it begins with a blank or a prefix. -/
def unsettled (value : String) : Bool :=
  value.toList.head?.any isSpace || "/CN=".toList.isPrefixOf value.toList ||
    "CN=".toList.isPrefixOf value.toList

theorem prefix_shortens {l : List Char}
    (h : "/CN=".toList.isPrefixOf l = true ∨ "CN=".toList.isPrefixOf l = true) :
    (withoutPrefix l).length < l.length := by
  have hlong : 3 ≤ l.length := by
    rcases h with h | h
    · have hle := (List.isPrefixOf_iff_prefix.mp h).length_le
      have hfour : "/CN=".toList.length = 4 := by decide
      omega
    · exact (List.isPrefixOf_iff_prefix.mp h).length_le
  unfold withoutPrefix
  split
  · rw [List.length_drop]
    omega
  · rw [if_pos (h.resolve_left (by assumption)), List.length_drop]
    omega

theorem normalized_last {value : String} {c : Char}
    (h : c ∈ (normalizePeerIdentity value).toList.getLast?) : isSpace c = false := by
  rw [normalizePeerIdentity_toList] at h
  obtain ⟨before, hbefore⟩ := withoutPrefix_suffix (trim value.toList)
  apply trim_last (l := value.toList)
  rw [← hbefore, List.getLast?_append, Option.mem_def.mp h]
  rfl

theorem normalizePeerIdentity_self_iff {value : String}
    (hlast : ∀ c ∈ value.toList.getLast?, isSpace c = false) :
    normalizePeerIdentity value = value ↔ unsettled value = false := by
  rw [← String.toList_inj, normalizePeerIdentity_toList]
  unfold unsettled
  generalize value.toList = l at hlast ⊢
  by_cases hblank : l.head?.any isSpace = true
  · rw [hblank]
    cases l with
    | nil => cases hblank
    | cons c l =>
      have hshort := trim_blank hblank l
      have hless := (withoutPrefix_suffix (trim (c :: l))).length_le
      constructor
      · intro h
        rw [h] at hless
        omega
      · intro h
        cases h
  · have hfirst : ∀ c ∈ l.head?, isSpace c = false := by
      intro c hc
      rw [Option.mem_def.mp hc] at hblank
      exact Bool.eq_false_iff.mpr hblank
    rw [trim_self hfirst hlast, Bool.eq_false_iff.mpr hblank, Bool.false_or, Bool.or_eq_false_iff]
    constructor
    · intro h
      by_contra hprefix
      rw [not_and_or, Bool.not_eq_false, Bool.not_eq_false] at hprefix
      have hshort := prefix_shortens hprefix
      rw [h] at hshort
      exact absurd hshort (lt_irrefl _)
    · rintro ⟨hslash, hcn⟩
      rw [withoutPrefix, hslash, hcn]
      rfl

theorem normalizePeerIdentity_idem_iff (value : String) :
    normalizePeerIdentity (normalizePeerIdentity value) = normalizePeerIdentity value ↔
      unsettled (normalizePeerIdentity value) = false :=
  normalizePeerIdentity_self_iff (fun _ h => normalized_last h)

theorem hasAllowedPeerIdentity_iff (peer : Peer) (allowed : List String) :
    hasAllowedPeerIdentity peer allowed = true ↔ peer.authenticated = true ∧
      ∃ entry ∈ allowed, normalizePeerIdentity entry ≠ "" ∧
        (normalizePeerIdentity peer.identity = normalizePeerIdentity entry ∨
          peer.identity = normalizePeerIdentity entry) := by
  unfold hasAllowedPeerIdentity
  rw [Bool.and_eq_true, List.any_eq_true]
  simp only [Bool.and_eq_true, Bool.or_eq_true, bne_iff_ne, beq_iff_eq]
  apply and_congr_right
  intro _
  apply exists_congr
  intro entry
  apply and_congr_right
  intro _
  apply and_congr_right
  intro _
  constructor
  · rintro ((h | h) | rfl)
    · exact .inr h
    · exact .inl h
    · exact .inl rfl
  · rintro (h | h)
    · exact .inl (.inr h)
    · exact .inl (.inl h)

theorem hasAllowedPeerIdentity_settled (peer : Peer) {allowed : List String}
    (h : ∀ entry ∈ allowed, unsettled (normalizePeerIdentity entry) = false) :
    hasAllowedPeerIdentity peer allowed = true ↔ peer.authenticated = true ∧
      ∃ entry ∈ allowed, normalizePeerIdentity entry ≠ "" ∧
        normalizePeerIdentity peer.identity = normalizePeerIdentity entry := by
  rw [hasAllowedPeerIdentity_iff]
  apply and_congr_right
  intro _
  apply exists_congr
  intro entry
  apply and_congr_right
  intro hentry
  apply and_congr_right
  intro _
  refine ⟨?_, Or.inl⟩
  rintro (hsame | hraw)
  · exact hsame
  · rw [hraw]
    exact (normalizePeerIdentity_idem_iff entry).mpr (h entry hentry)

/-- Who asks for a registration. -/
def registrant {F : Type} : Action F → Option Peer
  | .registerClient _ peer _ => some peer
  | .registerWorker _ peer _ => some peer
  | _ => none

/-- There is no identity, or it is the normal form of one of these callers. -/
def NormalOf (peers : List Peer) (identity : String) : Prop :=
  identity = "" ∨ ∃ p ∈ peers, identity = normalizePeerIdentity p.identity

theorem NormalOf.of_mem {peers : List Peer} {p : Peer} (h : p ∈ peers) :
    NormalOf peers (normalizePeerIdentity p.identity) := .inr ⟨p, h, rfl⟩

theorem NormalOf.append {peers : List Peer} {identity : String} (h : NormalOf peers identity)
    (more : List Peer) : NormalOf (peers ++ more) identity := by
  rcases h with hnone | ⟨p, hp, hsame⟩
  · exact .inl hnone
  · exact .inr ⟨p, List.mem_append_left _ hp, hsame⟩

theorem record_identities {P : String → Prop} {store : StateStore}
    (h : ∀ c ∈ store.clients, P c.peerIdentity) {record : PersistedClientRecord} (now : ℕ)
    (hrecord : P record.peerIdentity) :
    ∀ c ∈ (recordClientRegistration store record now).store.clients, P c.peerIdentity := by
  unfold recordClientRegistration
  dsimp only
  split
  · apply forall_updateFirst h
    intro c hc
    dsimp only
    split
    · exact hrecord
    · exact hc
  · exact forall_append_one h hrecord

theorem loadRegistry_identities {P : String → Prop} {clients : List PersistedClientRecord}
    (h : ∀ c ∈ clients, P c.peerIdentity) {key i : String}
    (hi : boundIdentity (loadRegistry clients) key = some i) : P i := by
  have hempty : boundIdentity ∅ key = none := rfl
  rw [loadRegistry, loadRegistry_bindings, hempty, Option.none_or] at hi
  obtain ⟨c, hc, rfl⟩ := Option.map_eq_some_iff.mp hi
  exact h c (List.mem_of_find?_eq_some hc)

variable {F : Type} {d : Deployment F} {s s' : Server F} {a : Action F} {peers : List Peer}

/-- Everything stored, or about to be, comes from these callers. -/
structure StoredOnce (peers : List Peer) (s : Server F) : Prop where
  registry : ∀ key i, boundIdentity s.world.registry key = some i → NormalOf peers i
  records : ∀ c ∈ s.world.store.clients, NormalOf peers c.peerIdentity
  client : ∀ info, clientInRegistration s = some info → NormalOf peers info.peerIdentity
  workers : ∀ q peer p, .registerWorker q peer p ∈ s.calls → peer ∈ peers

theorem initial_storedOnce (d : Deployment F) (start : Start) : StoredOnce [] (initial d start) where
  registry key i h := by
    have hnone : boundIdentity (initial d start).world.registry key = none := rfl
    rw [hnone] at h
    cases h
  records := by simp [initial, emptyStore]
  client := by simp [initial, clientInRegistration]
  workers := by simp [initial]

theorem StoredOnce.append (h : StoredOnce peers s) (more : List Peer) :
    StoredOnce (peers ++ more) s where
  registry key i hi := (h.registry key i hi).append more
  records c hc := (h.records c hc).append more
  client info hinfo := (h.client info hinfo).append more
  workers q peer p hmem := List.mem_append_left _ (h.workers q peer p hmem)

theorem StoredOnce.kept (h : StoredOnce peers s) (hk : Kept s s') : StoredOnce peers s' where
  registry key i hi := h.registry key i ((hk.bound key).symm.trans hi)
  records := forall_clientBindings (P := fun _ i => NormalOf peers i) hk.recorded h.records
  client info hinfo := h.client info (hk.client.symm.trans hinfo)
  workers q peer p hmem := h.workers q peer p ((hk.workers q peer p).mp hmem)

theorem register_identities {P : String → Prop} {g : Registry} {info : ClientInfo}
    (h : ∀ key i, boundIdentity g key = some i → P i) (hinfo : P info.peerIdentity) (key i : String)
    (hi : boundIdentity (register g info).2 key = some i) : P i := by
  rw [register_bindings] at hi
  split at hi
  · rw [← Option.some.inj hi]
    exact hinfo
  · exact h key i hi

theorem worker_storedOnce (h : StoredOnce peers s) {i now : ℕ} {q : WorkerRegistration}
    {peer : Peer} {p : RegisterWorkerPoint} (hcall : s.calls[i]? = some (.registerWorker q peer p)) :
    StoredOnce peers { s with
      world := (stepRegisterWorker s.world q peer now p).1
      calls := replaceCall s.calls i
        ((stepRegisterWorker s.world q peer now p).2.map (.registerWorker q peer)) } := by
  have hpeer := h.workers q peer p (List.mem_of_getElem? hcall)
  have hnormal : NormalOf peers (normalizePeerIdentity peer.identity) := .of_mem hpeer
  have hworkers : ∀ q' peer' p', .registerWorker q' peer' p' ∈ replaceCall s.calls i
      ((stepRegisterWorker s.world q peer now p).2.map (.registerWorker q peer)) →
        peer' ∈ peers := by
    intro q' peer' p' hmem
    rcases mem_replaceCall hmem with hold | hmoved
    · exact h.workers q' peer' p' hold
    · obtain ⟨point, -, he⟩ := Option.map_eq_some_iff.mp hmoved
      cases he
      exact hpeer
  cases p with
  | isRegistered => exact ⟨h.registry, h.records, h.client, hworkers⟩
  | register =>
    refine ⟨?_, h.records, h.client, hworkers⟩
    exact register_identities h.registry hnormal
  | bind =>
    refine ⟨?_, h.records, h.client, hworkers⟩
    intro key j hj
    simp only [stepRegisterWorker, bindPeerIdentityIfMissing_bindings] at hj
    split at hj
    · rw [← Option.some.inj hj]
      exact hnormal
    · exact h.registry key j hj
  | record registeredAt =>
    refine ⟨h.registry, ?_, h.client, hworkers⟩
    exact record_identities h.records now hnormal

variable [FloatArith F]

theorem step_storedOnce (hreached : StoreReached s) (h : StoredOnce peers s)
    (hs : Process.step d s a = some s') : StoredOnce (peers ++ (registrant a).toList) s' := by
  cases step_bindingStep hs with
  | kept hk => exact (h.kept hk).append _
  | @registerClient q peer now hidle haccept =>
    have hnormal : NormalOf (peers ++ [peer]) (normalizePeerIdentity peer.identity) :=
      .of_mem (List.mem_append_right _ (List.mem_singleton_self peer))
    have hgrown := h.append [peer]
    rw [startRegisterClient, if_neg (Bool.eq_false_iff.mp haccept)]
    refine ⟨register_identities hgrown.registry hnormal, hgrown.records, ?_, hgrown.workers⟩
    intro info hinfo
    cases hinfo
    exact hnormal
  | @submit q peer hidle =>
    have hkept : StoredOnce peers (startSubmit s q peer) := by
      refine ⟨h.registry, h.records, ?_, h.workers⟩
      intro info hinfo
      cases hinfo
    exact hkept.append _
  | @recordClient info response o hcall =>
    have hclient : clientInRegistration s = some info := by rw [clientInRegistration, hcall]
    have hrecorded : StoredOnce peers { s with
        world := s.world.after (recordClientRegistration s.world.store (clientRecord info) o.now)
        federated := some (.registerClient info (.audit response)) } := by
      refine ⟨h.registry, ?_, ?_, h.workers⟩
      · exact record_identities h.records o.now (h.client info hclient)
      · intro info' hinfo
        cases hinfo
    exact hrecorded.append _
  | @addWorker q peer now s' hk hcalls =>
    have hkept := (h.kept hk).append [peer]
    refine ⟨hkept.registry, hkept.records, hkept.client, ?_⟩
    intro q' peer' p' hmem
    rw [hcalls] at hmem
    rcases List.mem_append.mp hmem with hold | hnew
    · exact List.mem_append_left _ (h.workers q' peer' p' hold)
    · cases List.mem_singleton.mp hnew
      exact List.mem_append_right _ (List.mem_singleton_self peer)
  | worker hcall => exact (worker_storedOnce h hcall).append _
  | restart hrestart =>
    obtain ⟨hclients, -, hregistry, -, -, hcalls, hfederated, -⟩ :=
      restart_restarted hreached hrestart
    have hrecords : ∀ c ∈ s'.world.store.clients, NormalOf peers c.peerIdentity := by
      rw [hclients]
      exact h.records
    have hstarted : StoredOnce peers s' := by
      refine ⟨?_, hrecords, ?_, ?_⟩
      · intro key i hi
        rw [hregistry] at hi
        exact loadRegistry_identities hrecords hi
      · intro info hinfo
        rw [clientInRegistration, hfederated] at hinfo
        cases hinfo
      · intro q peer p hmem
        rw [hcalls] at hmem
        cases hmem
    exact hstarted.append _

theorem run_storedOnce (hreached : StoreReached s) (h : StoredOnce peers s)
    {actions : List (Action F)} (hs : exec (Process.step d) actions s = some s') :
    StoredOnce (peers ++ actions.filterMap registrant) s' := by
  induction actions generalizing s peers with
  | nil =>
    obtain rfl := Option.some.inj hs
    rw [List.filterMap_nil, List.append_nil]
    exact h
  | cons a actions ih =>
    obtain ⟨next, hstep, hrest⟩ := Option.bind_eq_some_iff.mp hs
    have hnext := ih (step_storeReached hreached hstep) (step_storedOnce hreached h hstep) hrest
    rw [List.append_assoc] at hnext
    have hcons : (a :: actions).filterMap registrant =
        (registrant a).toList ++ actions.filterMap registrant := by
      cases ha : registrant a with
      | none => rw [List.filterMap_cons_none ha, Option.toList_none, List.nil_append]
      | some p =>
        rw [List.filterMap_cons_some ha, Option.toList_some, List.singleton_append]
    rw [hcons]
    exact hnext

/-- A stored identity is the normal form of one of these callers, and whoever asks
for its client is compared with that caller by their normal forms. -/
structure ComparedByNormalForm (peers : List Peer) (s : Server F) : Prop where
  registry : ∀ t m c i, boundIdentity s.world.registry (clientKey t m c) = some i → i ≠ "" →
    ∃ p ∈ peers, i = normalizePeerIdentity p.identity ∧ ∀ caller : Peer,
      isRegisteredForPeer s.world.registry t m c (normalizePeerIdentity caller.identity) = true ↔
        normalizePeerIdentity caller.identity = normalizePeerIdentity p.identity
  records : ∀ c ∈ s.world.store.clients, c.peerIdentity ≠ "" →
    ∃ p ∈ peers, c.peerIdentity = normalizePeerIdentity p.identity

omit [FloatArith F] in
theorem StoredOnce.compared (h : StoredOnce peers s) : ComparedByNormalForm peers s where
  registry t m c i hi hne := by
    obtain ⟨p, hp, hsame⟩ := (h.registry _ i hi).resolve_left hne
    refine ⟨p, hp, hsame, ?_⟩
    intro caller
    rw [isRegisteredForPeer_eq, hi, hsame, Bool.and_eq_true, bne_iff_ne, beq_iff_eq,
      Option.some_inj]
    constructor
    · intro hpasses
      exact hpasses.2.symm
    · intro hcaller
      refine ⟨?_, hcaller.symm⟩
      rw [hcaller, ← hsame]
      exact hne
  records c hc hne := (h.records c hc).resolve_left hne

/-- Identities are compared by their normal forms, an allowlist also takes the
identity as it is. -/
theorem identities_by_normal_form (d : Deployment F) :
    (∀ (peer : Peer) (allowed : List String), hasAllowedPeerIdentity peer allowed = true ↔
      peer.authenticated = true ∧ ∃ entry ∈ allowed, normalizePeerIdentity entry ≠ "" ∧
        (normalizePeerIdentity peer.identity = normalizePeerIdentity entry ∨
          peer.identity = normalizePeerIdentity entry)) ∧
    (∀ (peer : Peer) (allowed : List String),
      (∀ entry ∈ allowed, unsettled (normalizePeerIdentity entry) = false) →
      (hasAllowedPeerIdentity peer allowed = true ↔ peer.authenticated = true ∧
        ∃ entry ∈ allowed, normalizePeerIdentity entry ≠ "" ∧
          normalizePeerIdentity peer.identity = normalizePeerIdentity entry)) ∧
    (∀ value, normalizePeerIdentity (normalizePeerIdentity value) = normalizePeerIdentity value ↔
      unsettled (normalizePeerIdentity value) = false) ∧
    ∀ (start : Start) (actions : List (Action F)) (s : Server F),
      exec (Process.step d) actions (initial d start) = some s →
      ComparedByNormalForm (actions.filterMap registrant) s := by
  refine ⟨hasAllowedPeerIdentity_iff, fun peer _ => hasAllowedPeerIdentity_settled peer,
    normalizePeerIdentity_idem_iff, ?_⟩
  intro start actions s hs
  have hstored := run_storedOnce (initial_storeReached d start) (initial_storedOnce d start) hs
  rw [List.nil_append] at hstored
  exact hstored.compared

/-- A client which has registered with a prefix before its name. -/
def prefixedServer : Server Binary32 :=
  (exec (Process.step standardDeployment) (registering "a" ⟨true, "/CN=site"⟩)
    (initial standardDeployment firstStart)).get (by decide +kernel)

/-- Blanks and another prefix make no difference. -/
theorem identities_by_normal_form_prefixed :
    hasAllowedPeerIdentity ⟨true, "/CN=pqfl-admin"⟩ [" CN=pqfl-admin "] = true ∧
    isRegisteredForPeer prefixedServer.world.registry "t" "m" "a"
      (normalizePeerIdentity " CN=site") = true := by
  obtain ⟨-, hallowed, -, hruns⟩ := identities_by_normal_form standardDeployment
  constructor
  · refine (hallowed ⟨true, "/CN=pqfl-admin"⟩ [" CN=pqfl-admin "] (by decide +kernel)).mpr ?_
    exact ⟨rfl, " CN=pqfl-admin ", List.mem_singleton_self _, by decide +kernel, by decide +kernel⟩
  · have hrun := hruns firstStart (registering "a" ⟨true, "/CN=site"⟩) prefixedServer
      (Option.some_get _).symm
    have hbound : boundIdentity prefixedServer.world.registry (clientKey "t" "m" "a") =
        some "site" := by decide +kernel
    obtain ⟨p, -, hsame, hcaller⟩ := hrun.registry "t" "m" "a" "site" hbound (by decide)
    refine (hcaller ⟨true, " CN=site"⟩).mpr ?_
    rw [← hsame]
    decide +kernel

/-- An entry with two prefixes lets the identity with one of them in, and is itself
changed by every further round. -/
theorem nested_prefix_allowed :
    (¬ ∀ (peer : Peer) (allowed : List String), peer.authenticated = true →
      (hasAllowedPeerIdentity peer allowed = true ↔ ∃ entry ∈ allowed,
        normalizePeerIdentity peer.identity = normalizePeerIdentity entry ∧
          normalizePeerIdentity entry ≠ "")) ∧
    ¬ ∀ value, normalizePeerIdentity (normalizePeerIdentity value) =
      normalizePeerIdentity value := by
  constructor
  · intro hall
    have hiff := hall ⟨true, "CN=pqfl-admin"⟩ ["CN=CN=pqfl-admin"] rfl
    obtain ⟨entry, hentry, hsame, -⟩ := hiff.mp (by decide +kernel)
    rw [List.mem_singleton.mp hentry] at hsame
    exact absurd hsame (by decide +kernel)
  · intro hall
    exact absurd (hall "CN=CN=pqfl-admin") (by decide +kernel)

end PqFl.PeerIdentities
