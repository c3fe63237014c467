import Mathlib.Data.List.AList
import Mathlib.Data.Int.Notation
import Mathlib.Tactic.NormNum

/-!
# The crypto engine

The sealed checkpoint blobs, the versioned master keys and the session keys of
`crypto_engine.cpp`. HMAC-SHA-256, AES-256-GCM and ML-KEM-1024 are parameters
with their documented laws. Random bytes are inputs.
-/

set_option autoImplicit false

namespace PqFl.Crypto

abbrev Bytes := List UInt8

/-- A buffer of a fixed size, such as a key, a nonce or a tag. -/
abbrev Block (n : ℕ) := {b : Bytes // b.length = n}

/-- The first `n` bytes behind a pointer. -/
def Block.read (n : ℕ) (b : Bytes) : Block n :=
  ⟨(b ++ List.replicate n 0).take n, by simp⟩

theorem Block.read_self {n : ℕ} (b : Block n) : Block.read n b.1 = b := by
  apply Subtype.ext
  simp [Block.read, b.2]

abbrev Key := Block 32

/-- OpenSSL and liboqs. -/
structure Primitives where
  hmacSha256 : (secret message : Bytes) → Key
  gcmSeal : (key : Key) → (iv : Block 12) → (plaintext : Bytes) → Bytes × Block 16
  gcmOpen : (key : Key) → (iv : Block 12) → (ciphertext : Bytes) → (tag : Block 16) → Option Bytes
  kemCiphertextLength : ℕ
  kemDecaps : (secretKey ciphertext : Bytes) → Option Bytes
  gcmOpen_gcmSeal : ∀ key iv plaintext,
    gcmOpen key iv (gcmSeal key iv plaintext).1 (gcmSeal key iv plaintext).2 = some plaintext

abbrev KeyVersions := AList (fun _ : ℤ => Key)

structure CryptoEngine where
  activeKeyVersion : ℤ
  keyVersions : KeyVersions
  key : Key
  payloadSecret : Bytes
  kemSecretKey : Bytes

def utf8 (s : String) : Bytes := s.toUTF8.data.toList

def blobMagic : Bytes := [0x50, 0x51, 0x46, 0x32]

def writeUint32BigEndian (value : ℕ) : Bytes :=
  [UInt8.ofNat (value / 2^24), UInt8.ofNat (value / 2^16), UInt8.ofNat (value / 2^8),
    UInt8.ofNat value]

def readUint32BigEndian : Bytes → ℕ
  | a::b::c::d::_ => a.toNat * 2^24 + b.toNat * 2^16 + c.toNat * 2^8 + d.toNat
  | _ => 0

theorem readUint32_write (value : ℕ) (rest : Bytes) (h : value < 2^32) :
    readUint32BigEndian (writeUint32BigEndian value ++ rest) = value := by
  simp only [writeUint32BigEndian, readUint32BigEndian, List.cons_append, UInt8.toNat_ofNat']
  omega

def encryptBlob (P : Primitives) (e : CryptoEngine) (iv : Block 12) (plaintext : Bytes) : Bytes :=
  let sealed := P.gcmSeal e.key iv plaintext
  blobMagic ++ writeUint32BigEndian (e.activeKeyVersion % 2^32).toNat ++ iv.1 ++ sealed.1 ++
    sealed.2.1

def decryptWithKey (P : Primitives) (key : Key) (ciphertext : Bytes) (iv : Block 12)
    (tag : Block 16) : Except String Bytes :=
  match P.gcmOpen key iv ciphertext tag with
  | none => .error "Decryption failed: GCM tag mismatch (integrity violation)"
  | some plaintext => .ok plaintext

/-- `static_cast<int>` of an unsigned 32-bit value. -/
def castInt (value : ℕ) : ℤ := Int.bmod value (2^32)

/-- The payload of a blob after a header of the given size. -/
def openPayload (P : Primitives) (key : Key) (offset : ℕ) (blob : Bytes) : Except String Bytes :=
  let payload := blob.drop offset
  decryptWithKey P key ((payload.drop 12).take (payload.length - 28)) (Block.read 12 payload)
    (Block.read 16 (payload.drop (payload.length - 16)))

def decryptBlob (P : Primitives) (e : CryptoEngine) (blob : Bytes) : Except String Bytes :=
  if 8 + 12 + 16 ≤ blob.length ∧ blob.take 4 = blobMagic then
    match e.keyVersions.lookup (castInt (readUint32BigEndian (blob.drop 4))) with
    | none => .error "Unknown key version for encrypted blob"
    | some key => openPayload P key 8 blob
  else if blob.length < 12 + 16 then .error "Invalid ciphertext blob length"
  else openPayload P e.key 0 blob

structure KeyRegistry where
  activeKeyVersion : ℤ
  keys : List ℤ

/-- The files of the engine: the registry, the first key file, the versioned
key files and the payload secret. -/
structure KeyFiles where
  registry : Option KeyRegistry
  keyFile : Option Key
  versioned : KeyVersions
  payload : Option Key

def noKeyFiles : KeyFiles := ⟨none, none, ∅, none⟩

/-- The loop over the registry's entries, `none` where a key file is missing. -/
def loadKeyVersions (versioned : KeyVersions) : List ℤ → Option KeyVersions
  | [] => some ∅
  | version::rest =>
    (loadKeyVersions versioned rest).bind (fun loaded =>
      if version ≤ 0 then some loaded
      else (versioned.lookup version).map (fun key => loaded.insert version key))

/-- The engine with a first key, and the files which are written for it. -/
def firstKey (versioned : KeyVersions) (key payload : Key) (kemSecretKey : Bytes) :
    CryptoEngine × KeyFiles :=
  (⟨1, (∅ : KeyVersions).insert 1 key, key, payload.1, kemSecretKey⟩,
    ⟨some ⟨1, [1]⟩, some key, versioned.insert 1 key, some payload⟩)

/-- The constructor. It fails where the source throws. -/
def loadOrGenerateKey (files : KeyFiles) (freshKey freshPayload : Key) (kemSecretKey : Bytes) :
    Option (CryptoEngine × KeyFiles) :=
  let payload := files.payload.getD freshPayload
  match files.registry, files.keyFile with
  | some registry, _ =>
    (loadKeyVersions files.versioned registry.keys).bind (fun keyVersions =>
      (keyVersions.lookup registry.activeKeyVersion).map (fun key =>
        (⟨registry.activeKeyVersion, keyVersions, key, payload.1, kemSecretKey⟩,
          { files with payload := some payload })))
  | none, some key => some (firstKey files.versioned key payload kemSecretKey)
  | none, none => some (firstKey files.versioned freshKey payload kemSecretKey)

/-- `active_key_version_ + 1` has to fit an `int`. -/
def rotateMasterKey (e : CryptoEngine) (files : KeyFiles) (keyBytes : Key) :
    Option (CryptoEngine × KeyFiles) :=
  if e.activeKeyVersion + 1 < 2^31 then
    let newVersion := e.activeKeyVersion + 1
    let keyVersions := e.keyVersions.insert newVersion keyBytes
    some ({ e with activeKeyVersion := newVersion, keyVersions := keyVersions, key := keyBytes },
      { files with
        registry := some ⟨newVersion, keyVersions.keys⟩
        versioned := files.versioned.insert newVersion keyBytes })
  else none

def deriveSessionKeyWithSecret (P : Primitives) (secret : Bytes) (contextParts : List Bytes) :
    Except String Key :=
  if secret.length ≠ 32 then .error "Payload secret must contain exactly 32 bytes"
  else .ok (P.hmacSha256 secret (utf8 "pqfl-session-v3" ++ contextParts.flatMap (fun part =>
    utf8 "|" ++ utf8 (toString part.length) ++ utf8 ":" ++ part)))

def deriveSessionKey (P : Primitives) (e : CryptoEngine) (contextParts : List Bytes) :
    Except String Key :=
  deriveSessionKeyWithSecret P e.payloadSecret contextParts

def deriveKemSessionKey (P : Primitives) (e : CryptoEngine) (contextParts : List Bytes)
    (kemCiphertext : Bytes) : Except String Key :=
  if kemCiphertext.length ≠ P.kemCiphertextLength then
    .error "Invalid ML-KEM-1024 ciphertext length"
  else
    match P.kemDecaps e.kemSecretKey kemCiphertext with
    | none => .error "ML-KEM-1024 decapsulation failed"
    | some sharedSecret => deriveSessionKeyWithSecret P sharedSecret contextParts

/-- The key which sealed a blob is the one its version number names. -/
structure KeysRetained (e : CryptoEngine) : Prop where
  positive : 1 ≤ e.activeKeyVersion
  fits : e.activeKeyVersion < 2^31
  active : e.keyVersions.lookup e.activeKeyVersion = some e.key
  newest : ∀ v ∈ e.keyVersions, v ≤ e.activeKeyVersion
  known : ∀ v ∈ e.keyVersions, 1 ≤ v

theorem castInt_version {v : ℤ} (h1 : 1 ≤ v) (h2 : v < 2^31) : castInt (v % 2^32).toNat = v := by
  have hmod : v % 2^32 = v := Int.emod_eq_of_lt (by omega) (by omega)
  rw [hmod]
  obtain ⟨n, rfl⟩ := Int.eq_ofNat_of_zero_le (by omega : 0 ≤ v)
  unfold castInt
  rw [Int.toNat_natCast, Int.bmod_eq_of_le]
  · norm_num
  · norm_num; omega

theorem openPayload_parts (P : Primitives) (key : Key) (header ciphertext : Bytes) (iv : Block 12)
    (tag : Block 16) :
    openPayload P key header.length (header ++ (iv.1 ++ (ciphertext ++ tag.1))) =
      decryptWithKey P key ciphertext iv tag := by
  obtain ⟨iv, hiv⟩ := iv
  obtain ⟨tag, htag⟩ := tag
  have hread : Block.read 12 (iv ++ (ciphertext ++ tag)) = ⟨iv, hiv⟩ := by
    apply Subtype.ext
    simp [Block.read, hiv]
  have hct : ((iv ++ (ciphertext ++ tag)).drop 12).take
      ((iv ++ (ciphertext ++ tag)).length - 28) = ciphertext := by
    rw [List.drop_left' hiv]
    exact List.take_left' (by simp [hiv, htag]; omega)
  have htail : Block.read 16 ((iv ++ (ciphertext ++ tag)).drop
      ((iv ++ (ciphertext ++ tag)).length - 16)) = ⟨tag, htag⟩ := by
    rw [← List.append_assoc, List.drop_left' (by simp [hiv, htag]; omega)]
    exact Block.read_self ⟨tag, htag⟩
  simp only [openPayload, List.drop_left, hread, hct, htail]

theorem decryptBlob_encryptBlob (P : Primitives) (e e' : CryptoEngine) (iv : Block 12)
    (plaintext : Bytes) (h : KeysRetained e)
    (hkey : e'.keyVersions.lookup e.activeKeyVersion = some e.key) :
    decryptBlob P e' (encryptBlob P e iv plaintext) = .ok plaintext := by
  have hopen := P.gcmOpen_gcmSeal e.key iv plaintext
  have hb : (e.activeKeyVersion % 2^32).toNat < 2^32 := by omega
  have hv := castInt_version h.positive h.fits
  unfold encryptBlob
  generalize (e.activeKeyVersion % 2^32).toNat = word at *
  generalize P.gcmSeal e.key iv plaintext = sealed at *
  have hmagic : blobMagic.length = 4 := rfl
  have hheader : (blobMagic ++ writeUint32BigEndian word).length = 8 := rfl
  have hiv := iv.2
  have htag := sealed.2.2
  have hblob : blobMagic ++ writeUint32BigEndian word ++ iv.1 ++ sealed.1 ++ sealed.2.1 =
      (blobMagic ++ writeUint32BigEndian word) ++ (iv.1 ++ (sealed.1 ++ sealed.2.1)) := by
    simp only [List.append_assoc]
  have hlong : 8 + 12 + 16 ≤ ((blobMagic ++ writeUint32BigEndian word) ++
      (iv.1 ++ (sealed.1 ++ sealed.2.1))).length := by
    rw [List.length_append, hheader, List.length_append, List.length_append, hiv, htag]
    omega
  have hread : castInt (readUint32BigEndian (((blobMagic ++ writeUint32BigEndian word) ++
      (iv.1 ++ (sealed.1 ++ sealed.2.1))).drop 4)) = e.activeKeyVersion := by
    rw [List.append_assoc, List.drop_left' hmagic, readUint32_write _ _ hb, hv]
  rw [hblob, decryptBlob, if_pos ⟨hlong, by rw [List.append_assoc, List.take_left' hmagic]⟩, hread,
    hkey]
  dsimp only
  rw [← hheader, openPayload_parts, decryptWithKey, hopen]

end PqFl.Crypto
