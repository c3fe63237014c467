import PqFl.Configuration
import PqFl.GlobalModelStream
import PqFl.PythonClient

/-!
# The signature of a streamed model

The signed text puts the scope, the round, the version and the ciphertext behind
each other with a bar between them. No part before the ciphertext can have a
bar, so the text determines all of them, whatever the ciphertext holds. The
clients build the same text from the fields of the update.
-/

set_option autoImplicit false

namespace PqFl.SignedUpdates
open PqFl.Identifiers PqFl.Crypto PqFl.Aggregation PqFl.Buffer PqFl.Services PqFl.Streams
open PqFl.Codes PqFl.SeparatedKeys PqFl.SessionContexts PqFl.PythonClient PqFl.Configuration

@[ext]
structure SignedUpdate where
  tenantId : String
  modelId : String
  round : ℤ
  modelVersion : ℤ
  ciphertext : Bytes
  deriving DecidableEq

/-- `to_sign` of the server. -/
def toSign (u : SignedUpdate) : Bytes :=
  utf8 (normalizeTenant u.tenantId ++ "|" ++ normalizeModel u.modelId ++ "|" ++
    toString u.round ++ "|" ++ toString u.modelVersion ++ "|") ++ u.ciphertext

/-- `signed_payload` of the clients. -/
def signedPayload (update : GlobalModelUpdate) : Bytes :=
  utf8 (update.tenantId ++ "|" ++ update.modelId ++ "|" ++
    toString update.roundIndex ++ "|" ++ toString update.modelVersion ++ "|") ++
    update.encryptedWeights

/-- `signature_ok` of the clients, for some way to verify a signature. -/
def signatureOk (verifySignature : Bytes → Bytes → Bool) (update : GlobalModelUpdate) : Bool :=
  verifySignature (signedPayload update) update.serverSignature

def normalized (u : SignedUpdate) : SignedUpdate :=
  { u with tenantId := normalizeTenant u.tenantId, modelId := normalizeModel u.modelId }

structure Accepted (u : SignedUpdate) : Prop where
  tenantId : validateIdentifier u.tenantId "tenant_id" true = ""
  modelId : validateIdentifier u.modelId "model_id" true = ""

/-- The code of the bar. -/
def bar : UInt8 := 124

theorem bar_notMem {s : String} (h : s.toList.all isAllowedIdentifierChar = true) :
    bar ∉ utf8 s := by
  rw [utf8_flatMap]
  intro hmem
  obtain ⟨ch, hch, hbyte⟩ := List.mem_flatMap.mp hmem
  have hallowed := List.all_eq_true.mp h ch hch
  have hsize := utf8Size_of_allowed hallowed
  rw [String.utf8EncodeChar_eq_singleton hsize, List.mem_singleton] at hbyte
  rw [Char.utf8Size_eq_one_iff, UInt32.le_iff_toNat_le] at hsize
  have hvalue := congrArg UInt8.toNat hbyte
  rw [UInt32.toNat_toUInt8] at hvalue
  have hbar : bar.toNat = 124 := rfl
  have hlow : ch.val.toNat ≤ 127 := hsize
  have heq : ch = '|' := by
    apply Char.ext
    apply UInt32.toNat_inj.mp
    show ch.val.toNat = 124
    omega
  rw [heq] at hallowed
  exact absurd hallowed (by decide)

/-- Parts with no bar, each closed by one, and the rest. -/
def barred : List String → Bytes → Bytes
  | [], rest => rest
  | part::parts, rest => utf8 part ++ bar :: barred parts rest

theorem barred_injective {parts parts' : List String} {rest rest' : Bytes}
    (hlength : parts.length = parts'.length)
    (hparts : ∀ part ∈ parts, part.toList.all isAllowedIdentifierChar = true)
    (hparts' : ∀ part ∈ parts', part.toList.all isAllowedIdentifierChar = true)
    (h : barred parts rest = barred parts' rest') : parts = parts' ∧ rest = rest' := by
  induction parts generalizing parts' with
  | nil =>
    obtain rfl := List.eq_nil_of_length_eq_zero hlength.symm
    exact ⟨rfl, h⟩
  | cons part parts ih =>
    cases parts' with
    | nil => cases hlength
    | cons part' parts' =>
      obtain ⟨hfirst, hnext⟩ := split_first (bar_notMem (hparts part List.mem_cons_self))
        (bar_notMem (hparts' part' List.mem_cons_self)) h
      obtain ⟨hrest, hlast⟩ := ih (Nat.succ.inj hlength)
        (fun p hp => hparts p (List.mem_cons_of_mem _ hp))
        (fun p hp => hparts' p (List.mem_cons_of_mem _ hp)) hnext
      rw [utf8_injective hfirst, hrest]
      exact ⟨rfl, hlast⟩

theorem utf8_bar : utf8 "|" = [bar] := by decide

theorem toSign_barred (u : SignedUpdate) : toSign u =
    barred [normalizeTenant u.tenantId, normalizeModel u.modelId, toString u.round,
      toString u.modelVersion] u.ciphertext := by
  unfold toSign
  simp only [barred, utf8_append, utf8_bar, List.append_assoc, List.cons_append, List.nil_append]

theorem parts_allowed {u : SignedUpdate} (h : Accepted u) :
    ∀ part ∈ [normalizeTenant u.tenantId, normalizeModel u.modelId, toString u.round,
      toString u.modelVersion], part.toList.all isAllowedIdentifierChar = true := by
  intro part hpart
  simp only [List.mem_cons, List.not_mem_nil, or_false] at hpart
  rcases hpart with rfl | rfl | rfl | rfl
  · exact normalizeTenant_allowed ((validateIdentifier_eq_empty (by decide)).mp h.tenantId).2.2
  · exact normalizeModel_allowed ((validateIdentifier_eq_empty (by decide)).mp h.modelId).2.2
  · exact toString_allowed u.round
  · exact toString_allowed u.modelVersion

theorem toSign_injective {u u' : SignedUpdate} (hu : Accepted u) (hu' : Accepted u')
    (h : toSign u = toSign u') : normalized u = normalized u' := by
  rw [toSign_barred, toSign_barred] at h
  obtain ⟨hparts, hciphertext⟩ := barred_injective (by rfl) (parts_allowed hu) (parts_allowed hu') h
  simp only [List.cons.injEq, and_true] at hparts
  obtain ⟨htenant, hmodel, hround, hversion⟩ := hparts
  ext1
  · exact htenant
  · exact hmodel
  · exact toString_inj hround
  · exact toString_inj hversion
  · exact hciphertext

theorem normalized_of_nonempty {u : SignedUpdate} (ht : u.tenantId ≠ "") (hm : u.modelId ≠ "") :
    normalized u = u := by
  rw [normalized, normalizeTenant, normalizeModel, if_neg ht, if_neg hm]

theorem toSign_normalized (u : SignedUpdate) : toSign (normalized u) = toSign u := by
  simp only [toSign, normalized, normalizeTenant_idem, normalizeModel_idem]

variable {F : Type}

def contentOf (latest : LatestModelSnapshot F) (q : ModelRequest) (update : GlobalModelUpdate) :
    SignedUpdate where
  tenantId := normalizeTenant q.tenantId
  modelId := normalizeModel q.modelId
  round := latest.round
  modelVersion := latest.modelVersion
  ciphertext := update.encryptedWeights

/-- The clients build the text that was signed for each update which is written. -/
def SignsWrites (latest : LatestModelSnapshot F) (q : ModelRequest) (o : StreamOracle)
    (p : Proceeded) : Prop :=
  ∀ update, .write update ∈ p.operations →
    update.serverSignature = o.signData (toSign (contentOf latest q update)) ∧
    signedPayload update = toSign (contentOf latest q update)

variable {d : Deployment F} {w : World F} {c : StreamGlobalModelCall} {o : StreamOracle}
  {latest : LatestModelSnapshot F} {q : ModelRequest}

theorem finishWithStatus_signs (code : StatusCode) (message : String) :
    SignsWrites latest q o (finishWithStatus c code message) := by
  intro update hupdate
  simp [finishWithStatus] at hupdate

variable [FloatArith F]

theorem writeUpdate_signs {e : CryptoEngine} {key : Key} {kemCiphertext : Bytes}
    {keyAgreement : String} : SignsWrites latest c.request o
      (writeUpdate d e c latest key kemCiphertext keyAgreement o) := by
  unfold writeUpdate
  cases o.iv with
  | none => exact finishWithStatus_signs _ _
  | some iv =>
    intro update hupdate
    rw [List.mem_singleton] at hupdate
    cases hupdate
    constructor
    · rfl
    · simp only [signedPayload, toSign, contentOf, normalizeTenant_idem, normalizeModel_idem]

theorem sendLatest_signs {e : CryptoEngine} {p : Proceeded}
    (h : sendLatest d e c latest o = .ok p) : SignsWrites latest c.request o p := by
  unfold sendLatest at h
  simp only at h
  split at h
  · cases hkem : o.encapsulated with
    | none =>
      rw [hkem] at h
      cases h
      exact finishWithStatus_signs _ _
    | some pair =>
      rw [hkem] at h
      obtain ⟨key, -, rfl⟩ := ok_of_map h
      exact writeUpdate_signs
  · obtain ⟨key, -, rfl⟩ := ok_of_map h
    exact writeUpdate_signs

theorem serve_signs {p : Proceeded} (h : serve d w c o = .ok p) :
    SignsWrites (getLatestGlobalModel w.buffer (normalizeTenant c.request.tenantId)
      (normalizeModel c.request.modelId)) c.request o p := by
  unfold serve at h
  simp only at h
  split at h
  · intro update hupdate
    split at h
    · cases h
      cases hupdate
    · cases h
      simp at hupdate
  · exact sendLatest_signs h

theorem proceedStatus_signs {p : Proceeded} (h : proceedStatus d w c o = .ok p) :
    SignsWrites (getLatestGlobalModel w.buffer (normalizeTenant c.request.tenantId)
      (normalizeModel c.request.modelId)) c.request o p := by
  unfold proceedStatus at h
  cases hstatus : c.status with
  | create =>
    rw [hstatus] at h
    cases h
    intro update hupdate
    split at hupdate
    · simp at hupdate
    · simp at hupdate
  | process =>
    rw [hstatus] at h
    obtain ⟨p', haccept, rfl⟩ := ok_of_map h
    unfold acceptStream at haccept
    split at haccept
    · cases haccept
      exact finishWithStatus_signs (c := c) _ _
    · have hsigns := serve_signs haccept
      exact hsigns
  | stream =>
    rw [hstatus] at h
    exact serve_signs h
  | finish =>
    rw [hstatus] at h
    cases h
    intro update hupdate
    cases hupdate

theorem proceed_signs {ok : Bool} {event : StreamEvent} {p : Proceeded}
    (h : proceed d w c ok event o = .ok p) :
    SignsWrites (getLatestGlobalModel w.buffer (normalizeTenant c.request.tenantId)
      (normalizeModel c.request.modelId)) c.request o p := by
  have hnone : ∀ call spawned, SignsWrites (getLatestGlobalModel w.buffer
      (normalizeTenant c.request.tenantId) (normalizeModel c.request.modelId)) c.request o
      ⟨call, [], spawned⟩ := by
    intro call spawned update hupdate
    cases hupdate
  cases event with
  | finish =>
    cases h
    exact hnone _ _
  | done =>
    cases h
    intro update hupdate
    split at hupdate
    · simp at hupdate
    · cases hupdate
  | write =>
    unfold proceed at h
    simp only at h
    split at h
    · cases h
      exact hnone _ _
    · have hsigns := proceedStatus_signs h
      exact hsigns
  | alarm =>
    unfold proceed at h
    simp only at h
    split at h
    · cases h
      exact hnone _ _
    · have hsigns := proceedStatus_signs h
      exact hsigns
  | start =>
    unfold proceed at h
    simp only at h
    split at h
    · cases h
      exact hnone _ _
    · exact proceedStatus_signs h
  | request =>
    unfold proceed at h
    simp only at h
    split at h
    · cases h
      exact hnone _ _
    · exact proceedStatus_signs h

/-- Where the public key verifies what the server signs, every update that is
written passes the check of the clients. -/
theorem written_verifies {verifySignature : Bytes → Bytes → Bool} {ok : Bool}
    {event : StreamEvent} {p : Proceeded} {update : GlobalModelUpdate}
    (hkeys : ∀ data, verifySignature data (o.signData data) = true)
    (h : proceed d w c ok event o = .ok p) (hupdate : .write update ∈ p.operations) :
    signatureOk verifySignature update = true := by
  obtain ⟨hsignature, hpayload⟩ := proceed_signs h update hupdate
  rw [signatureOk, hpayload, hsignature]
  exact hkeys _

/-- Two signed texts are the same only for the same content, and the clients
build the text that was signed. -/
theorem signed_updates_unambiguous (d : Deployment F) :
    (∀ u u', Accepted u → Accepted u' → (toSign u = toSign u' ↔ normalized u = normalized u')) ∧
    (∀ u u', Accepted u → Accepted u' → u.tenantId ≠ "" → u.modelId ≠ "" → u'.tenantId ≠ "" →
      u'.modelId ≠ "" → toSign u = toSign u' → u = u') ∧
    ∀ w c o ok event p, proceed d w c ok event o = .ok p →
      SignsWrites (getLatestGlobalModel w.buffer (normalizeTenant c.request.tenantId)
        (normalizeModel c.request.modelId)) c.request o p := by
  refine ⟨?_, ?_, ?_⟩
  · intro u u' hu hu'
    constructor
    · exact toSign_injective hu hu'
    · intro h
      rw [← toSign_normalized u, h, toSign_normalized u']
  · intro u u' hu hu' ht hm ht' hm' h
    have heq := toSign_injective hu hu' h
    rwa [normalized_of_nonempty ht hm, normalized_of_nonempty ht' hm'] at heq
  · intro w c o ok event p h
    exact proceed_signs h

/-- A digit of the version stands at the front of the ciphertext. -/
theorem signed_updates_bars :
    toSign ⟨"site-a", "model", 1, 2, [51, bar, 52]⟩ ≠
      toSign ⟨"site-a", "model", 1, 23, [bar, 52]⟩ := by
  intro h
  have heq := (signed_updates_unambiguous standardDeployment).2.1 _ _
    ⟨by decide, by decide⟩ ⟨by decide, by decide⟩ (by decide) (by decide) (by decide) (by decide) h
  exact absurd heq (by decide)

end PqFl.SignedUpdates
