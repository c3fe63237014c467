import Mathlib.Data.String.Basic
import PqFl.SeparatedKeys

/-!
# Identifiers, peer identities and map keys

The checks of `identity_utils.cpp` and the keys of `federated_helpers.hpp`.
The in-memory maps of the server are keyed by strings which join the tenant,
the model and a round or a client. The characters of the separators are legal
in identifiers, so a key does not determine its parts; the lemmas here say how
much it does determine.
-/

set_option autoImplicit false

namespace PqFl.Identifiers
open PqFl.SeparatedKeys

def isAllowedIdentifierChar (ch : Char) : Bool :=
  ch.isAlphanum || ch == '-' || ch == '_' || ch == '.' || ch == ':'

/-- The error text, empty when the identifier is accepted. -/
def validateIdentifier (value fieldName : String) (allowEmpty : Bool) : String :=
  if value = "" then
    if allowEmpty then "" else fieldName ++ " is required"
  else if 128 < value.utf8ByteSize then
    fieldName ++ " exceeds " ++ toString (128 : ℕ) ++ " characters"
  else if value.toList.all isAllowedIdentifierChar then ""
  else fieldName ++ " contains unsupported characters"

def validateFederatedRequestIds (tenantId modelId clientId : String) : String :=
  let error := validateIdentifier tenantId "tenant_id" true
  if error ≠ "" then error
  else
    let error := validateIdentifier modelId "model_id" true
    if error ≠ "" then error else validateIdentifier clientId "client_id" false

def normalizeTenant (tenantId : String) : String :=
  if tenantId = "" then "default-tenant" else tenantId

def normalizeModel (modelId : String) : String :=
  if modelId = "" then "default-model" else modelId

def scopeKey (tenantId modelId : String) : String :=
  normalizeTenant tenantId ++ "::" ++ normalizeModel modelId

def roundKey (tenantId modelId : String) (round : ℤ) : String :=
  scopeKey tenantId modelId ++ "::round:" ++ toString round

def clientKey (tenantId modelId clientId : String) : String :=
  scopeKey tenantId modelId ++ "::client:" ++ clientId

def isSpace (ch : Char) : Bool :=
  ch == ' ' || ch == '\t' || ch == '\n' || ch.toNat == 11 || ch.toNat == 12 || ch == '\r'

def trim (value : List Char) : List Char :=
  ((value.dropWhile isSpace).reverse.dropWhile isSpace).reverse

def normalizePeerIdentity (value : String) : String :=
  let value := trim value.toList
  if "/CN=".toList.isPrefixOf value then String.ofList (value.drop 4)
  else if "CN=".toList.isPrefixOf value then String.ofList (value.drop 3)
  else String.ofList value

/-- What the TLS layer reports about the caller. -/
structure Peer where
  authenticated : Bool
  identity : String
  deriving DecidableEq, Repr

def hasAllowedPeerIdentity (peer : Peer) (allowedIdentities : List String) : Bool :=
  peer.authenticated && allowedIdentities.any (fun allowed =>
    normalizePeerIdentity allowed != "" &&
      (peer.identity == normalizePeerIdentity allowed ||
        normalizePeerIdentity peer.identity == normalizePeerIdentity allowed ||
        peer.identity == allowed))

@[simp] theorem normalizeTenant_idem (t : String) :
    normalizeTenant (normalizeTenant t) = normalizeTenant t := by
  unfold normalizeTenant
  split <;> simp_all

@[simp] theorem normalizeModel_idem (m : String) :
    normalizeModel (normalizeModel m) = normalizeModel m := by
  unfold normalizeModel
  split <;> simp_all

@[simp] theorem scopeKey_normalize (t m : String) :
    scopeKey (normalizeTenant t) (normalizeModel m) = scopeKey t m := by
  simp [scopeKey]

@[simp] theorem roundKey_normalize (t m : String) (r : ℤ) :
    roundKey (normalizeTenant t) (normalizeModel m) r = roundKey t m r := by
  simp [roundKey]

@[simp] theorem clientKey_normalize (t m c : String) :
    clientKey (normalizeTenant t) (normalizeModel m) c = clientKey t m c := by
  simp [clientKey]

/-- The round number follows the last separator, so a round key determines
the scope key and the round. -/
theorem roundKey_inj {t m t' m' : String} {r r' : ℤ}
    (h : roundKey t m r = roundKey t' m' r') : scopeKey t m = scopeKey t' m' ∧ r = r' := by
  obtain ⟨hs, hr⟩ := joined_inj (s := "::round".toList) rfl
    (colon_notMem_toString r) (colon_notMem_toString r') h
  exact ⟨hs, toString_inj hr⟩

theorem clientKey_inj {t m t' m' c c' : String} (hc : ':' ∉ c.toList) (hc' : ':' ∉ c'.toList)
    (h : clientKey t m c = clientKey t' m' c') : scopeKey t m = scopeKey t' m' ∧ c = c' :=
  joined_inj (s := "::client".toList) rfl hc hc' h

theorem colon_notMem_normalizeModel {m : String} (h : ':' ∉ m.toList) :
    ':' ∉ (normalizeModel m).toList := by
  unfold normalizeModel
  split
  · decide
  · exact h

theorem scopeKey_inj {t m t' m' : String} (hm : ':' ∉ m.toList) (hm' : ':' ∉ m'.toList)
    (h : scopeKey t m = scopeKey t' m') :
    normalizeTenant t = normalizeTenant t' ∧ normalizeModel m = normalizeModel m' :=
  joined_inj (s := [':']) rfl (colon_notMem_normalizeModel hm)
    (colon_notMem_normalizeModel hm') h

theorem utf8Size_of_allowed {ch : Char} (h : isAllowedIdentifierChar ch = true) :
    ch.utf8Size = 1 := by
  rw [Char.utf8Size_eq_one_iff, UInt32.le_iff_toNat_le]
  unfold isAllowedIdentifierChar at h
  delta Char.isAlphanum Char.isAlpha Char.isUpper Char.isLower Char.isDigit at h
  simp only [Bool.or_eq_true, beq_iff_eq, Bool.and_eq_true, decide_eq_true_eq] at h
  rcases h with (((h | h) | h) | h) | h
  · simp only [ge_iff_le, UInt32.le_iff_toNat_le] at h
    rcases h with (h | h) | h
    · exact h.2.trans (by decide)
    · exact h.2.trans (by decide)
    · exact h.2.trans (by decide)
  all_goals
    subst h
    decide

theorem utf8ByteSize_of_allowed {cs : List Char} (h : cs.all isAllowedIdentifierChar = true) :
    (String.ofList cs).utf8ByteSize = cs.length := by
  rw [String.utf8ByteSize_ofList]
  induction cs with
  | nil => rfl
  | cons c cs ih =>
    rw [List.all_cons, Bool.and_eq_true] at h
    rw [String.utf8Len_cons, ih h.2, utf8Size_of_allowed h.1, List.length_cons]

theorem validateIdentifier_eq_empty {value fieldName : String} {allowEmpty : Bool}
    (hf : fieldName ≠ "") : validateIdentifier value fieldName allowEmpty = "" ↔
      (value = "" → allowEmpty = true) ∧ value.toList.length ≤ 128 ∧
        value.toList.all isAllowedIdentifierChar = true := by
  have hne : ∀ text : String, fieldName ++ text ≠ "" := by
    intro text h
    have hl := congrArg String.toList h
    rw [String.toList_append] at hl
    exact hf (String.toList_inj.mp (List.append_eq_nil_iff.mp hl).1)
  unfold validateIdentifier
  split
  · rename_i hv
    subst hv
    cases allowEmpty with
    | true => simp
    | false => simp [hne]
  rename_i hv
  by_cases hall : value.toList.all isAllowedIdentifierChar = true
  · have hsize := utf8ByteSize_of_allowed hall
    rw [String.ofList_toList] at hsize
    rw [hsize]
    split
    · rename_i hlong
      constructor
      · intro h
        rw [String.append_assoc, String.append_assoc] at h
        exact absurd h (hne _)
      · intro h
        omega
    · simp only [hall, true_iff]
      exact ⟨fun h => absurd h hv, by omega, trivial⟩
  · have hfalse : value.toList.all isAllowedIdentifierChar = false := by simpa using hall
    split
    · rw [String.append_assoc, String.append_assoc]
      simp [hne, hfalse]
    · simp [hne, hfalse]

theorem validateFederatedRequestIds_eq_empty {t m c : String} :
    validateFederatedRequestIds t m c = "" ↔
      (t.toList.length ≤ 128 ∧ t.toList.all isAllowedIdentifierChar = true) ∧
      (m.toList.length ≤ 128 ∧ m.toList.all isAllowedIdentifierChar = true) ∧
      c ≠ "" ∧ c.toList.length ≤ 128 ∧ c.toList.all isAllowedIdentifierChar = true := by
  have ht := @validateIdentifier_eq_empty t "tenant_id" true (by decide)
  have hm := @validateIdentifier_eq_empty m "model_id" true (by decide)
  have hc := @validateIdentifier_eq_empty c "client_id" false (by decide)
  simp only [implies_true, true_and] at ht hm
  simp only [Bool.false_eq_true, imp_false] at hc
  unfold validateFederatedRequestIds
  rw [← ht, ← hm, ← hc]
  by_cases ht' : validateIdentifier t "tenant_id" true = ""
  · by_cases hm' : validateIdentifier m "model_id" true = ""
    · simp [ht', hm']
    · simp [ht', hm']
  · simp [ht']

theorem normalizeTenant_allowed {t : String} (h : t.toList.all isAllowedIdentifierChar = true) :
    (normalizeTenant t).toList.all isAllowedIdentifierChar = true := by
  unfold normalizeTenant
  split
  · decide
  · exact h

theorem normalizeModel_allowed {m : String} (h : m.toList.all isAllowedIdentifierChar = true) :
    (normalizeModel m).toList.all isAllowedIdentifierChar = true := by
  unfold normalizeModel
  split
  · decide
  · exact h

end PqFl.Identifiers
