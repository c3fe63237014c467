import PqFl.Codes
import PqFl.Services

/-!
# The contexts of session keys

The MAC input of a session key is a fixed label and the parts of the context,
each behind its length. The parts are controlled by the caller; whatever they
hold, the input determines them.
-/

set_option autoImplicit false

namespace PqFl.SessionContexts
open PqFl.Identifiers PqFl.Crypto PqFl.Services PqFl.SeparatedKeys PqFl.Codes

/-- What `DeriveSessionKeyWithSecret` feeds to the MAC. -/
def macInput (contextParts : List Bytes) : Bytes :=
  utf8 "pqfl-session-v3" ++ contextParts.flatMap (fun part =>
    utf8 "|" ++ utf8 (toString part.length) ++ utf8 ":" ++ part)

theorem deriveSessionKeyWithSecret_macInput (P : Primitives) (secret : Bytes)
    (contextParts : List Bytes) (h : secret.length = 32) :
    deriveSessionKeyWithSecret P secret contextParts =
      .ok (P.hmacSha256 secret (macInput contextParts)) := by
  unfold deriveSessionKeyWithSecret
  rw [if_neg (by simp [h])]
  rfl

/-- The caller of a method and the scope and client it acts for; a submission
also has its round, and a nonce unless that is empty. -/
inductive RpcContext where
  | submit (peerIdentity tenantId modelId clientId : String) (roundIndex : ℤ) (clientNonce : Bytes)
  | stream (peerIdentity tenantId modelId clientId : String)
  deriving DecidableEq

def RpcContext.parts : RpcContext → List Bytes
  | .submit peerIdentity tenantId modelId clientId roundIndex clientNonce =>
    [utf8 peerIdentity, utf8 tenantId, utf8 modelId, utf8 clientId, utf8 (toString roundIndex),
      utf8 "submit"] ++ (if clientNonce = [] then [] else [clientNonce])
  | .stream peerIdentity tenantId modelId clientId =>
    [utf8 peerIdentity, utf8 tenantId, utf8 modelId, utf8 clientId, utf8 "stream"]

theorem deriveSubmitKey_parts (P : Primitives) (e : CryptoEngine) (q : SubmitWeightsRequest)
    (peer : Peer) (h : q.kemCiphertext = []) : deriveSubmitKey P e q peer =
      deriveSessionKey P e (RpcContext.submit peer.identity (normalizeTenant q.tenantId)
        (normalizeModel q.modelId) q.clientId q.roundIndex q.clientNonce).parts := by
  unfold deriveSubmitKey
  rw [if_pos h]
  rfl

theorem utf8_injective : Function.Injective utf8 := by
  intro s t h
  exact String.toByteArray_inj.mp (ByteArray.ext (Array.toList_inj.mp h))

theorem RpcContext.parts_injective : Function.Injective RpcContext.parts := by
  intro c c' h
  cases c with
  | submit p t m x r n =>
    cases c' with
    | submit p' t' m' x' r' n' =>
      simp only [parts, List.cons_append, List.nil_append, List.cons.injEq,
        utf8_injective.eq_iff] at h
      obtain ⟨rfl, rfl, rfl, rfl, hround, -, hnonce⟩ := h
      obtain rfl := toString_inj hround
      by_cases hn : n = []
      · by_cases hn' : n' = []
        · rw [hn, hn']
        · simp [hn, hn'] at hnonce
      · by_cases hn' : n' = []
        · simp [hn, hn'] at hnonce
        · simpa [hn, hn'] using hnonce
    | stream p' t' m' x' =>
      have hlength := congrArg List.length h
      simp [parts] at hlength
  | stream p t m x =>
    cases c' with
    | submit p' t' m' x' r' n' =>
      have hlength := congrArg List.length h
      simp [parts] at hlength
    | stream p' t' m' x' =>
      simp only [parts, List.cons.injEq, utf8_injective.eq_iff] at h
      obtain ⟨rfl, rfl, rfl, rfl, -⟩ := h
      rfl

theorem utf8_flatMap (s : String) : utf8 s = s.toList.flatMap String.utf8EncodeChar := by
  rw [utf8, String.toUTF8_eq_toByteArray, ← String.utf8Encode_toList, List.utf8Encode,
    List.data_toByteArray]

theorem colon_notMem_length (n : ℕ) : (58 : UInt8) ∉ utf8 (toString n) := by
  rw [utf8_flatMap]
  intro h
  obtain ⟨ch, hch, hbyte⟩ := List.mem_flatMap.mp h
  have hdigit : ch.isDigit = true := digit_of_mem_repr hch
  have hallowed : isAllowedIdentifierChar ch = true := by
    simp [isAllowedIdentifierChar, Char.isAlphanum, hdigit]
  rw [String.utf8EncodeChar_eq_singleton (utf8Size_of_allowed hallowed), List.mem_singleton] at hbyte
  simp only [Char.isDigit, Bool.and_eq_true, decide_eq_true_eq, ge_iff_le,
    UInt32.le_iff_toNat_le] at hdigit
  have hvalue := congrArg UInt8.toNat hbyte
  rw [UInt32.toNat_toUInt8] at hvalue
  have hlow : (48 : ℕ) ≤ ch.val.toNat := hdigit.1
  have hhigh : ch.val.toNat ≤ (57 : ℕ) := hdigit.2
  rw [Nat.mod_eq_of_lt (by omega)] at hvalue
  have : (58 : UInt8).toNat = 58 := rfl
  omega

theorem partCode_selfDelimiting : SelfDelimiting (fun part : Bytes =>
    utf8 "|" ++ utf8 (toString part.length) ++ utf8 ":" ++ part) := by
  have hlength : SelfDelimiting (fun n : ℕ => utf8 (toString n) ++ [58]) :=
    selfDelimiting_closed colon_notMem_length (fun m n h => nat_repr_inj (utf8_injective h))
  have hcolon : utf8 ":" = [58] := by decide
  have hmarked := hlength.withLength.marked (utf8 "|")
  simpa only [List.append_assoc, hcolon] using hmarked

/-- The input of the MAC determines the parts of the context, and so the call
which the session key is for. -/
theorem macInput_inj_iff (xs ys : List Bytes) : (macInput xs = macInput ys ↔ xs = ys) ∧
    ∀ c c' : RpcContext, macInput c.parts = macInput c'.parts ↔ c = c' := by
  have hinj : Function.Injective macInput := by
    intro xs ys h
    apply partCode_selfDelimiting.flatMap_injective _ (List.append_cancel_left h)
    intro part hnil
    cases hnil
  exact ⟨hinj.eq_iff, fun c c' => hinj.eq_iff.trans RpcContext.parts_injective.eq_iff⟩

end PqFl.SessionContexts
