import PqFl.Configuration

/-!
# Master keys over rotations and restarts

The engine and its files agree after every rotation, and a restart reads back
what the engine had. No key is ever lost or replaced, so a blob opens under
every later engine.
-/

set_option autoImplicit false

namespace PqFl.RetainedKeys
open PqFl.Crypto PqFl.Runs PqFl.Configuration

inductive KeyAction where
  | rotateMasterKey (keyBytes : Key)
  | restart (freshKey freshPayload : Key) (kemSecretKey : Bytes)

/-- All writes of key files succeed; a restart keeps the files only. -/
def keyStep (s : CryptoEngine × KeyFiles) : KeyAction → Option (CryptoEngine × KeyFiles)
  | .rotateMasterKey keyBytes => rotateMasterKey s.1 s.2 keyBytes
  | .restart freshKey freshPayload kemSecretKey =>
    loadOrGenerateKey s.2 freshKey freshPayload kemSecretKey

/-- No key is newer than the active one, as in every registry that is written. -/
def OrderedRegistry (files : KeyFiles) : Prop :=
  ∀ registry, files.registry = some registry →
    registry.activeKeyVersion < 2^31 ∧ ∀ v ∈ registry.keys, v ≤ registry.activeKeyVersion

/-- The files have the active version and all keys of the engine. -/
structure OnFile (e : CryptoEngine) (files : KeyFiles) : Prop where
  registered : ∃ keys, files.registry = some ⟨e.activeKeyVersion, keys⟩ ∧
    ∀ v, v ∈ e.keyVersions ↔ v ∈ keys ∧ 1 ≤ v
  stored : ∀ v ∈ e.keyVersions, files.versioned.lookup v = e.keyVersions.lookup v

structure Retained (s : CryptoEngine × KeyFiles) : Prop where
  keys : KeysRetained s.1
  onFile : OnFile s.1 s.2

/-- Every key of the first engine is in the second one, under its number. -/
def KeysKept (e e' : CryptoEngine) : Prop :=
  ∀ v key, e.keyVersions.lookup v = some key → e'.keyVersions.lookup v = some key

theorem KeysKept.trans {e e' e'' : CryptoEngine} (h : KeysKept e e') (h' : KeysKept e' e'') :
    KeysKept e e'' := fun v key hkey => h' v key (h v key hkey)

/-- The loop over the entries of the registry, whatever reads the key of a version. -/
def loadKeys (loadKeyBytes : ℤ → Option Key) : List ℤ → Option KeyVersions
  | [] => some ∅
  | version::rest =>
    (loadKeys loadKeyBytes rest).bind (fun loaded =>
      if version ≤ 0 then some loaded
      else (loadKeyBytes version).map (fun key => loaded.insert version key))

theorem loadKeyVersions_eq (versioned : KeyVersions) (keys : List ℤ) :
    loadKeyVersions versioned keys = loadKeys versioned.lookup keys := by
  induction keys with
  | nil => rfl
  | cons version keys ih => rw [loadKeyVersions, loadKeys, ih]

theorem loadKeys_lookup {loadKeyBytes : ℤ → Option Key} {loaded : KeyVersions} {keys : List ℤ}
    (h : loadKeys loadKeyBytes keys = some loaded) (v : ℤ) :
    (v ∈ loaded ↔ v ∈ keys ∧ 1 ≤ v) ∧ (v ∈ loaded → loaded.lookup v = loadKeyBytes v) := by
  induction keys generalizing loaded with
  | nil =>
    obtain rfl : ∅ = loaded := by simpa [loadKeys] using h
    simp [AList.notMem_empty]
  | cons version keys ih =>
    obtain ⟨rest, hrest, h⟩ := Option.bind_eq_some_iff.mp h
    obtain ⟨hmem, hlookup⟩ := ih hrest
    by_cases hv : version ≤ 0
    · rw [if_pos hv] at h
      obtain rfl := Option.some.inj h
      refine ⟨?_, hlookup⟩
      rw [hmem, List.mem_cons]
      constructor
      · rintro ⟨hk, hpos⟩
        exact ⟨.inr hk, hpos⟩
      · rintro ⟨rfl | hk, hpos⟩
        · omega
        · exact ⟨hk, hpos⟩
    · rw [if_neg hv] at h
      obtain ⟨key, hkey, rfl⟩ := Option.map_eq_some_iff.mp h
      by_cases heq : v = version
      · subst heq
        rw [AList.lookup_insert, hkey]
        simp only [AList.mem_insert, true_or, List.mem_cons, true_and, true_iff, implies_true,
          and_true]
        omega
      · rw [AList.lookup_insert_ne heq]
        simp only [AList.mem_insert, heq, false_or, List.mem_cons]
        exact ⟨hmem, hlookup⟩

theorem loadKeys_some {loadKeyBytes : ℤ → Option Key} {keys : List ℤ}
    (h : ∀ v ∈ keys, 1 ≤ v → ∃ key, loadKeyBytes v = some key) :
    ∃ loaded, loadKeys loadKeyBytes keys = some loaded := by
  induction keys with
  | nil => exact ⟨∅, rfl⟩
  | cons version keys ih =>
    obtain ⟨loaded, hloaded⟩ := ih (fun v hv => h v (List.mem_cons_of_mem _ hv))
    rw [loadKeys, hloaded, Option.bind_some]
    by_cases hv : version ≤ 0
    · exact ⟨loaded, if_pos hv⟩
    · obtain ⟨key, hkey⟩ := h version List.mem_cons_self (by omega)
      exact ⟨loaded.insert version key, by rw [if_neg hv, hkey, Option.map_some]⟩

theorem loadKeys_registered {e : CryptoEngine} {loadKeyBytes : ℤ → Option Key} {keys : List ℤ}
    (hkeys : ∀ v, v ∈ e.keyVersions ↔ v ∈ keys ∧ 1 ≤ v)
    (hstored : ∀ v key, e.keyVersions.lookup v = some key → loadKeyBytes v = some key) :
    ∃ loaded, loadKeys loadKeyBytes keys = some loaded ∧
      ∀ v, loaded.lookup v = e.keyVersions.lookup v := by
  have hall : ∀ v ∈ keys, 1 ≤ v → ∃ key, loadKeyBytes v = some key := by
    intro v hv hpos
    obtain ⟨key, hkey⟩ := Option.isSome_iff_exists.mp
      (AList.lookup_isSome.mpr ((hkeys v).mpr ⟨hv, hpos⟩))
    exact ⟨key, hstored v key hkey⟩
  obtain ⟨loaded, hloaded⟩ := loadKeys_some hall
  refine ⟨loaded, hloaded, ?_⟩
  intro v
  obtain ⟨hmem, hlookup⟩ := loadKeys_lookup hloaded v
  cases hkey : e.keyVersions.lookup v with
  | none =>
    have hnot : v ∉ e.keyVersions := AList.lookup_eq_none.mp hkey
    exact AList.lookup_eq_none.mpr (fun h => hnot ((hkeys v).mpr (hmem.mp h)))
  | some key =>
    have hv : v ∈ e.keyVersions := AList.lookup_isSome.mp (by rw [hkey]; rfl)
    rw [hlookup (hmem.mpr ((hkeys v).mp hv)), hstored v key hkey]

theorem keysRetained_congr {e e' : CryptoEngine} (h : KeysRetained e)
    (hversion : e'.activeKeyVersion = e.activeKeyVersion) (hkey : e'.key = e.key)
    (hsame : ∀ v, e'.keyVersions.lookup v = e.keyVersions.lookup v) : KeysRetained e' := by
  have hmem : ∀ v, v ∈ e'.keyVersions → v ∈ e.keyVersions := by
    intro v hv
    rw [← AList.lookup_isSome, ← hsame]
    exact AList.lookup_isSome.mpr hv
  constructor
  · rw [hversion]
    exact h.positive
  · rw [hversion]
    exact h.fits
  · rw [hversion, hsame, hkey]
    exact h.active
  · intro v hv
    rw [hversion]
    exact h.newest v (hmem v hv)
  · intro v hv
    exact h.known v (hmem v hv)

theorem rotateMasterKey_eq {s s' : CryptoEngine × KeyFiles} {keyBytes : Key}
    (h : rotateMasterKey s.1 s.2 keyBytes = some s') : s.1.activeKeyVersion + 1 < 2^31 ∧
      s' = ({ s.1 with
        activeKeyVersion := s.1.activeKeyVersion + 1
        keyVersions := s.1.keyVersions.insert (s.1.activeKeyVersion + 1) keyBytes
        key := keyBytes },
      { s.2 with
        registry := some ⟨s.1.activeKeyVersion + 1,
          (s.1.keyVersions.insert (s.1.activeKeyVersion + 1) keyBytes).keys⟩
        versioned := s.2.versioned.insert (s.1.activeKeyVersion + 1) keyBytes }) := by
  unfold rotateMasterKey at h
  by_cases hfits : s.1.activeKeyVersion + 1 < 2^31
  · rw [if_pos hfits] at h
    exact ⟨hfits, (Option.some.inj h).symm⟩
  · rw [if_neg hfits] at h
    cases h

theorem rotate_keysRetained {s s' : CryptoEngine × KeyFiles} {keyBytes : Key}
    (hs : KeysRetained s.1) (h : rotateMasterKey s.1 s.2 keyBytes = some s') :
    KeysRetained s'.1 ∧ KeysKept s.1 s'.1 := by
  obtain ⟨hfits, rfl⟩ := rotateMasterKey_eq h
  have hnew : ∀ v ∈ s.1.keyVersions, v ≠ s.1.activeKeyVersion + 1 := by
    intro v hv heq
    have hle := hs.newest v hv
    omega
  have hpositive := hs.positive
  constructor
  · constructor
    · dsimp only
      omega
    · exact hfits
    · exact AList.lookup_insert _
    · intro v hv
      rcases (AList.mem_insert _).mp hv with rfl | hv
      · exact le_refl _
      · have hle := hs.newest v hv
        dsimp only
        omega
    · intro v hv
      rcases (AList.mem_insert _).mp hv with rfl | hv
      · omega
      · exact hs.known v hv
  · intro v key hkey
    have hv : v ∈ s.1.keyVersions := AList.lookup_isSome.mp (by rw [hkey]; rfl)
    dsimp only
    rw [AList.lookup_insert_ne (hnew v hv), hkey]

theorem rotate_onFile {s s' : CryptoEngine × KeyFiles} {keyBytes : Key} (hs : Retained s)
    (h : rotateMasterKey s.1 s.2 keyBytes = some s') : OnFile s'.1 s'.2 := by
  have hknown := (rotate_keysRetained hs.keys h).1.known
  obtain ⟨-, rfl⟩ := rotateMasterKey_eq h
  constructor
  · refine ⟨_, rfl, ?_⟩
    intro v
    rw [AList.mem_keys]
    exact ⟨fun hv => ⟨hv, hknown v hv⟩, fun hv => hv.1⟩
  · intro v hv
    by_cases heq : v = s.1.activeKeyVersion + 1
    · rw [heq, AList.lookup_insert, AList.lookup_insert]
    · rw [AList.lookup_insert_ne heq, AList.lookup_insert_ne heq]
      exact hs.onFile.stored v (((AList.mem_insert _).mp hv).resolve_left heq)

theorem firstKey_retained (files : KeyFiles) (key payload : Key) (kemSecretKey : Bytes) :
    Retained (firstKey files.versioned key payload kemSecretKey) := by
  have hmem : ∀ v : ℤ, v ∈ (∅ : KeyVersions).insert 1 key ↔ v = 1 := by
    intro v
    rw [AList.mem_insert]
    simp [AList.notMem_empty]
  constructor
  · constructor
    · exact le_refl (1 : ℤ)
    · exact (by decide : (1 : ℤ) < 2^31)
    · exact AList.lookup_insert _
    · intro v hv
      exact le_of_eq ((hmem v).mp hv)
    · intro v hv
      exact ge_of_eq ((hmem v).mp hv)
  · constructor
    · refine ⟨[1], rfl, ?_⟩
      intro v
      refine (hmem v).trans ?_
      rw [List.mem_singleton]
      constructor
      · rintro rfl
        exact ⟨rfl, le_refl _⟩
      · exact fun hv => hv.1
    · intro v hv
      obtain rfl := (hmem v).mp hv
      change (files.versioned.insert 1 key).lookup 1 = ((∅ : KeyVersions).insert 1 key).lookup 1
      rw [AList.lookup_insert, AList.lookup_insert]

theorem load_retained {files : KeyFiles} {freshKey freshPayload : Key} {kemSecretKey : Bytes}
    {s : CryptoEngine × KeyFiles} (hfiles : OrderedRegistry files)
    (h : loadOrGenerateKey files freshKey freshPayload kemSecretKey = some s) : Retained s := by
  obtain ⟨registry, keyFile, versioned, payload⟩ := files
  cases registry with
  | none =>
    cases keyFile with
    | none =>
      obtain rfl := Option.some.inj h
      exact firstKey_retained _ _ _ _
    | some key =>
      obtain rfl := Option.some.inj h
      exact firstKey_retained _ _ _ _
  | some registry =>
    obtain ⟨loaded, hloaded, h⟩ := Option.bind_eq_some_iff.mp h
    obtain ⟨key, hkey, rfl⟩ := Option.map_eq_some_iff.mp h
    obtain ⟨hfits, hordered⟩ := hfiles registry rfl
    rw [loadKeyVersions_eq] at hloaded
    have hlookup := loadKeys_lookup hloaded
    have hactive : registry.activeKeyVersion ∈ loaded :=
      AList.lookup_isSome.mp (by rw [hkey]; rfl)
    constructor
    · constructor
      · exact ((hlookup _).1.mp hactive).2
      · exact hfits
      · exact hkey
      · exact fun v hv => hordered v ((hlookup v).1.mp hv).1
      · exact fun v hv => ((hlookup v).1.mp hv).2
    · constructor
      · exact ⟨registry.keys, rfl, fun v => (hlookup v).1⟩
      · exact fun v hv => ((hlookup v).2 hv).symm

theorem restart_retained {s : CryptoEngine × KeyFiles} (hs : Retained s)
    (freshKey freshPayload : Key) (kemSecretKey : Bytes) :
    ∃ s', loadOrGenerateKey s.2 freshKey freshPayload kemSecretKey = some s' ∧ Retained s' ∧
      s'.1.activeKeyVersion = s.1.activeKeyVersion ∧
      ∀ v, s'.1.keyVersions.lookup v = s.1.keyVersions.lookup v := by
  obtain ⟨e, registry, keyFile, versioned, payload⟩ := s
  obtain ⟨hretained, ⟨⟨keys, hregistry, hkeys⟩, hstored⟩⟩ := hs
  dsimp only at *
  subst hregistry
  have hfiles : ∀ v key, e.keyVersions.lookup v = some key → versioned.lookup v = some key := by
    intro v key hkey
    rw [hstored v (AList.lookup_isSome.mp (by rw [hkey]; rfl)), hkey]
  obtain ⟨loaded, hloaded, hsame⟩ := loadKeys_registered hkeys hfiles
  have hload : loadOrGenerateKey ⟨some ⟨e.activeKeyVersion, keys⟩, keyFile, versioned, payload⟩
      freshKey freshPayload kemSecretKey =
        some (⟨e.activeKeyVersion, loaded, e.key, (payload.getD freshPayload).1, kemSecretKey⟩,
          ⟨some ⟨e.activeKeyVersion, keys⟩, keyFile, versioned,
            some (payload.getD freshPayload)⟩) := by
    simp only [loadOrGenerateKey, loadKeyVersions_eq, hloaded, Option.bind_some, hsame,
      hretained.active, Option.map_some]
  refine ⟨_, hload, ⟨keysRetained_congr hretained rfl rfl hsame, ?_⟩, rfl, hsame⟩
  have hlookup := loadKeys_lookup hloaded
  constructor
  · exact ⟨keys, rfl, fun v => (hlookup v).1⟩
  · exact fun v hv => ((hlookup v).2 hv).symm

theorem Retained.orderedRegistry {s : CryptoEngine × KeyFiles} (hs : Retained s) :
    OrderedRegistry s.2 := by
  obtain ⟨hkeys, ⟨keys, hregistry, hmem⟩, -⟩ := hs
  intro registry h
  obtain rfl := Option.some.inj (hregistry.symm.trans h)
  constructor
  · exact hkeys.fits
  · intro v hv
    by_cases hpos : 1 ≤ v
    · exact hkeys.newest v ((hmem v).mpr ⟨hv, hpos⟩)
    · have hactive := hkeys.positive
      dsimp only
      omega

theorem keyStep_retained {s s' : CryptoEngine × KeyFiles} {a : KeyAction} (hs : Retained s)
    (h : keyStep s a = some s') : Retained s' ∧ KeysKept s.1 s'.1 := by
  cases a with
  | rotateMasterKey keyBytes =>
    obtain ⟨hkeys, hkept⟩ := rotate_keysRetained hs.keys h
    exact ⟨⟨hkeys, rotate_onFile hs h⟩, hkept⟩
  | restart freshKey freshPayload kemSecretKey =>
    obtain ⟨s'', hload, hretained, -, hsame⟩ :=
      restart_retained hs freshKey freshPayload kemSecretKey
    obtain rfl : s'' = s' := Option.some.inj (hload.symm.trans h)
    constructor
    · exact hretained
    · intro v key hkey
      rw [hsame, hkey]

theorem run_retained {s s' : CryptoEngine × KeyFiles} (hs : Retained s)
    (h : Reaches keyStep Free s s') : Retained s' ∧ KeysKept s.1 s'.1 := by
  induction h with
  | start => exact ⟨hs, fun _ _ hkey => hkey⟩
  | next _ _ hstep ih =>
    obtain ⟨hretained, hkept⟩ := keyStep_retained ih.1 hstep
    exact ⟨hretained, ih.2.trans hkept⟩

theorem Retained.decrypt {s s' : CryptoEngine × KeyFiles} (P : Primitives) (hs : Retained s)
    (hkept : KeysKept s.1 s'.1) (iv : Block 12) (plaintext : Bytes) :
    decryptBlob P s'.1 (encryptBlob P s.1 iv plaintext) = .ok plaintext :=
  decryptBlob_encryptBlob P s.1 s'.1 iv plaintext hs.keys (hkept _ _ hs.keys.active)

theorem payload_pieces {payload : Bytes} (h : 12 + 16 ≤ payload.length) :
    payload = (Block.read 12 payload).1 ++ ((payload.drop 12).take (payload.length - 28) ++
      (Block.read 16 (payload.drop (payload.length - 16))).1) := by
  have hiv : (Block.read 12 payload).1 = payload.take 12 := by
    unfold Block.read
    exact List.take_append_of_le_length (by omega)
  have htag : (Block.read 16 (payload.drop (payload.length - 16))).1 =
      payload.drop (payload.length - 16) := by
    have hlength : (payload.drop (payload.length - 16)).length = 16 := by
      rw [List.length_drop]
      omega
    exact congrArg Subtype.val (Block.read_self ⟨_, hlength⟩)
  have hrest : (payload.drop 12).drop (payload.length - 28) =
      payload.drop (payload.length - 16) := by
    rw [List.drop_drop]
    congr 1
    omega
  rw [hiv, htag, ← hrest, List.take_append_drop, List.take_append_drop]

theorem openPayload_pieces (key : Key) {offset : ℕ} {blob : Bytes}
    (h : offset + 12 + 16 ≤ blob.length) : ∃ (iv : Block 12) (ciphertext : Bytes) (tag : Block 16),
      blob = blob.take offset ++ (iv.1 ++ (ciphertext ++ tag.1)) ∧
      ∀ P, openPayload P key offset blob = decryptWithKey P key ciphertext iv tag := by
  have hlength : 12 + 16 ≤ (blob.drop offset).length := by
    rw [List.length_drop]
    omega
  refine ⟨_, _, _, ?_, fun P => rfl⟩
  rw [← payload_pieces hlength, List.take_append_drop]

/-- How `DecryptBlob` takes a blob apart: it throws before it reads the payload,
or the pieces it reads are the blob behind its header, of either layout. -/
def Sliced (e : CryptoEngine) (blob : Bytes) : Prop :=
  (∃ message, ∀ P, decryptBlob P e blob = .error message) ∨
  ∃ (header ciphertext : Bytes) (iv : Block 12) (tag : Block 16) (key : Key),
    blob = header ++ (iv.1 ++ (ciphertext ++ tag.1)) ∧
    (header = [] ∨ header.length = 8 ∧ header.take 4 = blobMagic) ∧
    ∀ P, decryptBlob P e blob = decryptWithKey P key ciphertext iv tag

theorem decryptBlob_sliced (e : CryptoEngine) (blob : Bytes) : Sliced e blob := by
  unfold Sliced decryptBlob
  by_cases hversioned : 8 + 12 + 16 ≤ blob.length ∧ blob.take 4 = blobMagic
  · simp only [if_pos hversioned]
    cases e.keyVersions.lookup (castInt (readUint32BigEndian (blob.drop 4))) with
    | none => exact .inl ⟨_, fun P => rfl⟩
    | some key =>
      obtain ⟨iv, ciphertext, tag, hblob, hopen⟩ := openPayload_pieces key hversioned.1
      refine .inr ⟨blob.take 8, ciphertext, iv, tag, key, hblob, .inr ⟨?_, ?_⟩, hopen⟩
      · rw [List.length_take]
        omega
      · rw [List.take_take]
        exact hversioned.2
  · simp only [if_neg hversioned]
    by_cases hshort : blob.length < 12 + 16
    · simp only [if_pos hshort]
      exact .inl ⟨_, fun P => rfl⟩
    · simp only [if_neg hshort]
      have hlong : 0 + 12 + 16 ≤ blob.length := by omega
      obtain ⟨iv, ciphertext, tag, hblob, hopen⟩ := openPayload_pieces e.key hlong
      exact .inr ⟨[], ciphertext, iv, tag, e.key, hblob, .inl rfl, hopen⟩

/-- What was sealed at any time is opened at every later time, and by the
process after it; and no byte of a blob is read twice or left out. -/
theorem blobs_survive_rotation (P : Primitives) (files : KeyFiles) (freshKey freshPayload : Key)
    (kemSecretKey : Bytes) (s₀ s s' : CryptoEngine × KeyFiles) (hfiles : OrderedRegistry files)
    (hstart : loadOrGenerateKey files freshKey freshPayload kemSecretKey = some s₀)
    (hs : Reaches keyStep Free s₀ s) (hs' : Reaches keyStep Free s s') :
    (∀ iv plaintext, decryptBlob P s'.1 (encryptBlob P s.1 iv plaintext) = .ok plaintext) ∧
    (∀ freshKey freshPayload kemSecretKey, ∃ s'',
      keyStep s' (.restart freshKey freshPayload kemSecretKey) = some s'' ∧
      ∀ iv plaintext, decryptBlob P s''.1 (encryptBlob P s.1 iv plaintext) = .ok plaintext) ∧
    ∀ blob, Sliced s'.1 blob := by
  have hretained := (run_retained (load_retained hfiles hstart) hs).1
  obtain ⟨hretained', hkept⟩ := run_retained hretained hs'
  refine ⟨?_, ?_, ?_⟩
  · intro iv plaintext
    exact hretained.decrypt P hkept iv plaintext
  · intro freshKey freshPayload kemSecretKey
    obtain ⟨s'', hload, -, -, hsame⟩ := restart_retained hretained' freshKey freshPayload kemSecretKey
    refine ⟨s'', hload, ?_⟩
    intro iv plaintext
    apply hretained.decrypt P _ iv plaintext
    intro v key hkey
    rw [hsame]
    exact hkept v key hkey
  · intro blob
    exact decryptBlob_sliced s'.1 blob

/-- A blob of the second key, after a restart and two more rotations. -/
theorem blobs_survive_rotation_restarted : ∃ s₀ s s' : CryptoEngine × KeyFiles,
    loadOrGenerateKey noKeyFiles zeroKey zeroKey [] = some s₀ ∧
    exec keyStep [.rotateMasterKey (Block.read 32 [1])] s₀ = some s ∧
    exec keyStep [.restart zeroKey zeroKey [], .rotateMasterKey (Block.read 32 [2]),
      .rotateMasterKey (Block.read 32 [3])] s = some s' ∧
    s'.1.activeKeyVersion = 4 ∧
    decryptBlob standInPrimitives s'.1 (encryptBlob standInPrimitives s.1 (Block.read 12 []) [7]) =
      .ok [7] := by
  refine ⟨_, _, _, rfl, rfl, rfl, rfl, ?_⟩
  have hfiles : OrderedRegistry noKeyFiles := by
    intro registry hregistry
    cases hregistry
  exact (blobs_survive_rotation standInPrimitives noKeyFiles zeroKey zeroKey [] _ _ _ hfiles rfl
    (exec_reaches [.rotateMasterKey (Block.read 32 [1])] rfl)
    (exec_reaches [.restart zeroKey zeroKey [], .rotateMasterKey (Block.read 32 [2]),
      .rotateMasterKey (Block.read 32 [3])] rfl)).1 _ _

end PqFl.RetainedKeys
