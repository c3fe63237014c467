import PqFl.RetainedKeys

/-!
# A crash within a rotation

`RotateMasterKey` opens the new key file, rewrites the registry in place and
closes the key file last. The registry that is being written cannot be parsed,
and once it is whole it names a key file which is still empty.
-/

set_option autoImplicit false

namespace PqFl.RotationCrashes
open PqFl.Crypto PqFl.Runs PqFl.RetainedKeys PqFl.Configuration

/-- A text is known by what it parses to; one that is cut short does not parse. -/
inductive RegistryText where
  | cut
  | whole (registry : KeyRegistry)

structure DiskFiles where
  registry : Option RegistryText
  keyFile : Option Bytes
  versioned : AList (fun _ : ℤ => Bytes)
  payload : Option Key

def loadKeyBytes (keyFile : Option Bytes) : Option Key :=
  keyFile.bind (fun content =>
    if 32 ≤ content.length then some (Block.read 32 content) else none)

/-- The engine which the constructor builds from these files. It fails where
the source throws. -/
def restartEngine (disk : DiskFiles) (freshKey freshPayload : Key) (kemSecretKey : Bytes) :
    Option CryptoEngine :=
  let payload := disk.payload.getD freshPayload
  match disk.registry, disk.keyFile with
  | some .cut, _ => none
  | some (.whole registry), _ =>
    (loadKeys (fun version => loadKeyBytes (disk.versioned.lookup version)) registry.keys).bind
      (fun keyVersions => (keyVersions.lookup registry.activeKeyVersion).map (fun key =>
        ⟨registry.activeKeyVersion, keyVersions, key, payload.1, kemSecretKey⟩))
  | none, some content =>
    (loadKeyBytes (some content)).map (fun key => (firstKey ∅ key payload kemSecretKey).1)
  | none, none => some (firstKey ∅ freshKey payload kemSecretKey).1

structure Shows (disk : DiskFiles) (files : KeyFiles) : Prop where
  registry : disk.registry = files.registry.map .whole
  keyFile : disk.keyFile = files.keyFile.map (·.1)
  versioned : ∀ v, disk.versioned.lookup v = (files.versioned.lookup v).map (·.1)
  payload : disk.payload = files.payload

theorem loadKeyBytes_key (key : Key) : loadKeyBytes (some key.1) = some key := by
  have hlength : 32 ≤ key.1.length := by rw [key.2]
  rw [loadKeyBytes, Option.bind_some, if_pos hlength, Block.read_self]

theorem restartEngine_shows {disk : DiskFiles} {files : KeyFiles} (h : Shows disk files)
    (freshKey freshPayload : Key) (kemSecretKey : Bytes) :
    restartEngine disk freshKey freshPayload kemSecretKey =
      (loadOrGenerateKey files freshKey freshPayload kemSecretKey).map Prod.fst := by
  obtain ⟨registry, keyFile, versioned, payload⟩ := files
  obtain ⟨hregistry, hkeyFile, hversioned, hpayload⟩ := h
  have hread : (fun version => loadKeyBytes (disk.versioned.lookup version)) = versioned.lookup := by
    funext version
    rw [hversioned version]
    cases versioned.lookup version with
    | none => rfl
    | some key => exact loadKeyBytes_key key
  unfold restartEngine
  rw [hregistry, hkeyFile, hpayload, hread]
  cases registry with
  | some registry =>
    simp only [Option.map_some, loadOrGenerateKey, loadKeyVersions_eq]
    cases loadKeys versioned.lookup registry.keys with
    | none => rfl
    | some loaded =>
      cases hactive : loaded.lookup registry.activeKeyVersion with
      | none => simp [hactive]
      | some key => simp [hactive]
  | none =>
    cases keyFile with
    | none => rfl
    | some key =>
      simp only [Option.map_none, Option.map_some, loadKeyBytes_key]
      rfl

inductive DiskStep where
  | keyFile (version : ℤ) (content : Bytes)
  | registry (text : RegistryText)

def effect : DiskStep → DiskFiles → DiskFiles
  | .keyFile version content, disk =>
    { disk with versioned := disk.versioned.insert version content }
  | .registry text, disk => { disk with registry := some text }

def effects (steps : List DiskStep) (disk : DiskFiles) : DiskFiles :=
  steps.foldl (fun disk step => effect step disk) disk

/-- `SaveKeyRegistry` of the rotated engine, from the truncation on, and the key
file's way to disk as far as it is not complete. -/
def unfinishedSteps (rotated : CryptoEngine) (pieces : ℕ) (keyCuts : List (Fin 32)) :
    List DiskStep :=
  List.replicate pieces (.registry .cut) ++
    [.registry (.whole ⟨rotated.activeKeyVersion, rotated.keyVersions.keys⟩)] ++
    keyCuts.map (fun n : Fin 32 => .keyFile rotated.activeKeyVersion (rotated.key.1.take n))

/-- The key file is opened first and closed last. -/
def rotateSteps (rotated : CryptoEngine) (pieces : ℕ) (keyCuts : List (Fin 32)) : List DiskStep :=
  [.keyFile rotated.activeKeyVersion [], .registry .cut] ++
    unfinishedSteps rotated pieces keyCuts ++
    [.keyFile rotated.activeKeyVersion rotated.key.1]

/-- What is on disk when the process stops after `k` steps. -/
def stoppedFiles (rotated : CryptoEngine) (pieces : ℕ) (keyCuts : List (Fin 32)) (k : ℕ)
    (disk : DiskFiles) : DiskFiles :=
  effects ((rotateSteps rotated pieces keyCuts).take k) disk

theorem effects_append (steps steps' : List DiskStep) (disk : DiskFiles) :
    effects (steps ++ steps') disk = effects steps' (effects steps disk) := by
  unfold effects
  rw [List.foldl_append]

theorem rotateSteps_length (rotated : CryptoEngine) (pieces : ℕ) (keyCuts : List (Fin 32)) :
    (rotateSteps rotated pieces keyCuts).length =
      2 + (unfinishedSteps rotated pieces keyCuts).length + 1 := by
  rw [rotateSteps, List.length_append, List.length_append]
  rfl

theorem mem_unfinishedSteps {rotated : CryptoEngine} {pieces : ℕ} {keyCuts : List (Fin 32)}
    {x : DiskStep} (h : x ∈ unfinishedSteps rotated pieces keyCuts) :
    x = .registry .cut ∨
      x = .registry (.whole ⟨rotated.activeKeyVersion, rotated.keyVersions.keys⟩) ∨
      ∃ content : Bytes, content.length < 32 ∧ x = .keyFile rotated.activeKeyVersion content := by
  rw [unfinishedSteps, List.mem_append, List.mem_append, List.mem_singleton] at h
  rcases h with (hcut | hwhole) | hkey
  · exact .inl (List.eq_of_mem_replicate hcut)
  · exact .inr (.inl hwhole)
  · obtain ⟨n, -, rfl⟩ := List.mem_map.mp hkey
    refine .inr (.inr ⟨_, ?_, rfl⟩)
    rw [List.length_take]
    have hn := n.isLt
    omega

theorem version_of_mem_rotateSteps {rotated : CryptoEngine} {pieces : ℕ} {keyCuts : List (Fin 32)}
    {version : ℤ} {content : Bytes}
    (h : DiskStep.keyFile version content ∈ rotateSteps rotated pieces keyCuts) :
    version = rotated.activeKeyVersion := by
  rw [rotateSteps, List.mem_append, List.mem_append] at h
  rcases h with (hfirst | hunfinished) | hlast
  · simp only [List.mem_cons, DiskStep.keyFile.injEq, reduceCtorEq, List.not_mem_nil,
      or_false] at hfirst
    exact hfirst.1
  · rcases mem_unfinishedSteps hunfinished with heq | heq | ⟨_, -, heq⟩
    · cases heq
    · cases heq
    · cases heq
      rfl
  · rw [List.mem_singleton] at hlast
    cases hlast
    rfl

theorem effects_lookup {rotated : CryptoEngine} {pieces : ℕ} {keyCuts : List (Fin 32)}
    {steps : List DiskStep} (hsub : ∀ x ∈ steps, x ∈ rotateSteps rotated pieces keyCuts)
    (disk : DiskFiles) {v : ℤ} (hv : v ≠ rotated.activeKeyVersion) :
    (effects steps disk).versioned.lookup v = disk.versioned.lookup v := by
  induction steps generalizing disk with
  | nil => rfl
  | cons x steps ih =>
    refine (ih (fun y hy => hsub y (List.mem_cons_of_mem _ hy)) (effect x disk)).trans ?_
    cases x with
    | registry text => rfl
    | keyFile version content =>
      obtain rfl := version_of_mem_rotateSteps (hsub _ List.mem_cons_self)
      exact AList.lookup_insert_ne hv

theorem rotateSteps_registry (rotated : CryptoEngine) (pieces : ℕ) (keyCuts : List (Fin 32))
    (disk : DiskFiles) : (effects (rotateSteps rotated pieces keyCuts) disk).registry =
      some (.whole ⟨rotated.activeKeyVersion, rotated.keyVersions.keys⟩) := by
  have hkeyFiles : ∀ (cuts : List (Fin 32)) (disk : DiskFiles),
      (effects (cuts.map (fun n : Fin 32 =>
        .keyFile rotated.activeKeyVersion (rotated.key.1.take n))) disk).registry = disk.registry := by
    intro cuts
    induction cuts with
    | nil => exact fun _ => rfl
    | cons n cuts ih => exact fun disk => ih _
  rw [rotateSteps, unfinishedSteps, effects_append, effects_append, effects_append]
  change (effects (keyCuts.map _) _).registry = _
  rw [hkeyFiles, effects_append]
  rfl

structure OnDisk (e : CryptoEngine) (disk : DiskFiles) : Prop where
  registered : ∃ keys, disk.registry = some (.whole ⟨e.activeKeyVersion, keys⟩) ∧
    ∀ v, v ∈ e.keyVersions ↔ v ∈ keys ∧ 1 ≤ v
  stored : ∀ v key, e.keyVersions.lookup v = some key → disk.versioned.lookup v = some key.1

theorem stopped_early {e rotated : CryptoEngine} {disk : DiskFiles} (h : OnDisk e disk)
    (hnew : rotated.activeKeyVersion ∉ e.keyVersions) (pieces : ℕ) (keyCuts : List (Fin 32))
    {k : ℕ} (hk : k ≤ 1) : OnDisk e (stoppedFiles rotated pieces keyCuts k disk) := by
  constructor
  · obtain ⟨keys, hregistry, hkeys⟩ := h.registered
    refine ⟨keys, ?_, hkeys⟩
    match k with
    | 0 => exact hregistry
    | 1 => exact hregistry
    | k+2 => omega
  · intro v key hkey
    have hv : v ≠ rotated.activeKeyVersion := by
      rintro rfl
      exact hnew (AList.lookup_isSome.mp (by rw [hkey]; rfl))
    rw [stoppedFiles, effects_lookup (fun x hx => List.mem_of_mem_take hx) disk hv]
    exact h.stored v key hkey

/-- The registry is cut, or it names a key whose file is too short. -/
structure Broken (rotated : CryptoEngine) (disk : DiskFiles) : Prop where
  registry : disk.registry = some .cut ∨
    disk.registry = some (.whole ⟨rotated.activeKeyVersion, rotated.keyVersions.keys⟩)
  keyFile : ∃ content : Bytes, content.length < 32 ∧
    disk.versioned.lookup rotated.activeKeyVersion = some content

theorem effects_broken {rotated : CryptoEngine} {pieces : ℕ} {keyCuts : List (Fin 32)}
    {steps : List DiskStep} (hsub : ∀ x ∈ steps, x ∈ unfinishedSteps rotated pieces keyCuts)
    {disk : DiskFiles} (h : Broken rotated disk) : Broken rotated (effects steps disk) := by
  induction steps generalizing disk with
  | nil => exact h
  | cons x steps ih =>
    apply ih (fun y hy => hsub y (List.mem_cons_of_mem _ hy))
    rcases mem_unfinishedSteps (hsub x List.mem_cons_self) with rfl | rfl | ⟨content, hshort, rfl⟩
    · exact ⟨.inl rfl, h.keyFile⟩
    · exact ⟨.inr rfl, h.keyFile⟩
    · exact ⟨h.registry, content, hshort, AList.lookup_insert _⟩

theorem stopped_broken (rotated : CryptoEngine) (pieces : ℕ) (keyCuts : List (Fin 32)) {k : ℕ}
    (hk : 1 < k) (hlength : k < (rotateSteps rotated pieces keyCuts).length) (disk : DiskFiles) :
    Broken rotated (stoppedFiles rotated pieces keyCuts k disk) := by
  obtain ⟨k, rfl⟩ : ∃ j, k = j + 2 := ⟨k - 2, by omega⟩
  rw [rotateSteps_length] at hlength
  have htake : (rotateSteps rotated pieces keyCuts).take (k + 2) =
      [.keyFile rotated.activeKeyVersion [], .registry .cut] ++
        (unfinishedSteps rotated pieces keyCuts).take k := by
    have hfits : k + 2 ≤ ([DiskStep.keyFile rotated.activeKeyVersion [], .registry .cut] ++
        unfinishedSteps rotated pieces keyCuts).length := by
      rw [List.length_append]
      change k + 2 ≤ 2 + _
      omega
    rw [rotateSteps, List.take_append_of_le_length hfits]
    rfl
  rw [stoppedFiles, htake, effects_append]
  apply effects_broken (fun x hx => List.mem_of_mem_take hx)
  exact ⟨.inl rfl, [], by decide, AList.lookup_insert _⟩

theorem loadKeys_unreadable (read : ℤ → Option Key) {keys : List ℤ} {version : ℤ}
    (hmem : version ∈ keys) (hpos : 1 ≤ version) (hread : read version = none) :
    loadKeys read keys = none := by
  induction keys with
  | nil => cases hmem
  | cons first keys ih =>
    rw [loadKeys]
    by_cases hrest : version ∈ keys
    · rw [ih hrest, Option.bind_none]
    · obtain rfl : version = first := (List.mem_cons.mp hmem).resolve_right hrest
      cases loadKeys read keys with
      | none => rfl
      | some loaded =>
        rw [Option.bind_some, if_neg (by omega), hread, Option.map_none]

theorem restart_broken {rotated : CryptoEngine} {disk : DiskFiles} (hrotated : KeysRetained rotated)
    (h : Broken rotated disk) (freshKey freshPayload : Key) (kemSecretKey : Bytes) :
    restartEngine disk freshKey freshPayload kemSecretKey = none := by
  unfold restartEngine
  rcases h.registry with hregistry | hregistry
  · rw [hregistry]
  · rw [hregistry]
    obtain ⟨content, hshort, hcontent⟩ := h.keyFile
    have hunread : loadKeyBytes (disk.versioned.lookup rotated.activeKeyVersion) = none := by
      rw [hcontent, loadKeyBytes, Option.bind_some, if_neg (by omega)]
    have hmem : rotated.activeKeyVersion ∈ rotated.keyVersions.keys := by
      rw [← AList.mem_keys, ← AList.lookup_isSome, hrotated.active]
      rfl
    dsimp only
    rw [loadKeys_unreadable (fun version => loadKeyBytes (disk.versioned.lookup version)) hmem
      hrotated.positive hunread, Option.bind_none]

theorem stopped_late {e rotated : CryptoEngine} {disk : DiskFiles} (h : OnDisk e disk)
    (hrotated : KeysRetained rotated)
    (hkeys : ∀ v, v ≠ rotated.activeKeyVersion →
      rotated.keyVersions.lookup v = e.keyVersions.lookup v)
    (pieces : ℕ) (keyCuts : List (Fin 32)) {k : ℕ}
    (hk : (rotateSteps rotated pieces keyCuts).length ≤ k) :
    OnDisk rotated (stoppedFiles rotated pieces keyCuts k disk) := by
  rw [stoppedFiles, List.take_of_length_le hk]
  constructor
  · refine ⟨rotated.keyVersions.keys, rotateSteps_registry rotated pieces keyCuts disk, ?_⟩
    intro v
    rw [AList.mem_keys]
    exact ⟨fun hv => ⟨hv, hrotated.known v hv⟩, fun hv => hv.1⟩
  · intro v key hkey
    by_cases hv : v = rotated.activeKeyVersion
    · subst hv
      obtain rfl : rotated.key = key := Option.some.inj (hrotated.active.symm.trans hkey)
      rw [rotateSteps, effects_append]
      exact AList.lookup_insert _
    · rw [effects_lookup (fun x hx => hx) disk hv]
      exact h.stored v key ((hkeys v hv).symm.trans hkey)

theorem rotation_shows {s s' : CryptoEngine × KeyFiles} {keyBytes : Key} {disk : DiskFiles}
    (hs : Shows disk s.2) (h : rotateMasterKey s.1 s.2 keyBytes = some s') (pieces : ℕ)
    (keyCuts : List (Fin 32)) : Shows (effects (rotateSteps s'.1 pieces keyCuts) disk) s'.2 := by
  obtain ⟨-, rfl⟩ := rotateMasterKey_eq h
  have hkept : ∀ (steps : List DiskStep) (disk : DiskFiles),
      (effects steps disk).keyFile = disk.keyFile ∧
        (effects steps disk).payload = disk.payload := by
    intro steps
    induction steps with
    | nil => exact fun _ => ⟨rfl, rfl⟩
    | cons x steps ih =>
      intro disk
      have hrest := ih (effect x disk)
      cases x with
      | keyFile version content => exact hrest
      | registry text => exact hrest
  constructor
  · exact rotateSteps_registry _ pieces keyCuts disk
  · exact (hkept _ disk).1.trans hs.keyFile
  · intro v
    by_cases hv : v = s.1.activeKeyVersion + 1
    · rw [hv, AList.lookup_insert, rotateSteps, effects_append]
      exact AList.lookup_insert _
    · rw [AList.lookup_insert_ne hv, effects_lookup (fun x hx => hx) disk hv]
      exact hs.versioned v
  · exact (hkept _ disk).2.trans hs.payload

inductive CrashAction where
  | rotateMasterKey (keyBytes : Key)
  | restart (freshKey freshPayload : Key) (kemSecretKey : Bytes)
  | crash (keyBytes : Key) (pieces : ℕ) (keyCuts : List (Fin 32)) (k : ℕ)
    (freshKey freshPayload : Key) (kemSecretKey : Bytes)

/-- The engine after a rotation does not depend on the files. -/
def rotatedEngine (e : CryptoEngine) (keyBytes : Key) : Option CryptoEngine :=
  (rotateMasterKey e noKeyFiles keyBytes).map Prod.fst

/-- After a crash a new process starts on the files that are left. -/
def crashStep (s : CryptoEngine × DiskFiles) : CrashAction → Option (CryptoEngine × DiskFiles)
  | .rotateMasterKey keyBytes =>
    (rotatedEngine s.1 keyBytes).map (fun rotated =>
      (rotated, effects (rotateSteps rotated 0 []) s.2))
  | .restart freshKey freshPayload kemSecretKey =>
    (restartEngine s.2 freshKey freshPayload kemSecretKey).map (fun e => (e, s.2))
  | .crash keyBytes pieces keyCuts k freshKey freshPayload kemSecretKey =>
    (rotatedEngine s.1 keyBytes).bind (fun rotated =>
      (restartEngine (stoppedFiles rotated pieces keyCuts k s.2) freshKey freshPayload
        kemSecretKey).map (fun e => (e, stoppedFiles rotated pieces keyCuts k s.2)))

/-- The rotation had not come to the registry yet, or it was done with the key file. -/
def Harmless (pieces : ℕ) (keyCuts : List (Fin 32)) (k : ℕ) : Prop :=
  k ≤ 1 ∨ 4 + pieces + keyCuts.length ≤ k

def Survivable (_ : CryptoEngine × DiskFiles) : CrashAction → Prop
  | .crash _ pieces keyCuts k _ _ _ => Harmless pieces keyCuts k
  | _ => True

theorem rotateSteps_count (rotated : CryptoEngine) (pieces : ℕ) (keyCuts : List (Fin 32)) :
    (rotateSteps rotated pieces keyCuts).length = 4 + pieces + keyCuts.length := by
  rw [rotateSteps_length, unfinishedSteps, List.length_append, List.length_append,
    List.length_replicate, List.length_map, List.length_singleton]
  omega

theorem rotatedEngine_retained {e rotated : CryptoEngine} {keyBytes : Key} (he : KeysRetained e)
    (h : rotatedEngine e keyBytes = some rotated) : KeysRetained rotated ∧ KeysKept e rotated ∧
      rotated.activeKeyVersion ∉ e.keyVersions ∧
      ∀ v, v ≠ rotated.activeKeyVersion →
        rotated.keyVersions.lookup v = e.keyVersions.lookup v := by
  obtain ⟨s', hs', rfl⟩ := Option.map_eq_some_iff.mp h
  obtain ⟨hretained, hkept⟩ := rotate_keysRetained (s := (e, noKeyFiles)) he hs'
  obtain ⟨-, rfl⟩ := rotateMasterKey_eq (s := (e, noKeyFiles)) hs'
  refine ⟨hretained, hkept, ?_, ?_⟩
  · intro hmem
    have hle := he.newest _ hmem
    dsimp only at hle
    omega
  · intro v hv
    exact AList.lookup_insert_ne hv

theorem restart_onDisk {e : CryptoEngine} {disk : DiskFiles} (he : KeysRetained e)
    (h : OnDisk e disk) (freshKey freshPayload : Key) (kemSecretKey : Bytes) :
    ∃ e', restartEngine disk freshKey freshPayload kemSecretKey = some e' ∧ KeysRetained e' ∧
      OnDisk e' disk ∧ KeysKept e e' := by
  obtain ⟨keys, hregistry, hkeys⟩ := h.registered
  have hfiles : ∀ v key, e.keyVersions.lookup v = some key →
      loadKeyBytes (disk.versioned.lookup v) = some key := by
    intro v key hkey
    rw [h.stored v key hkey, loadKeyBytes_key]
  obtain ⟨loaded, hloaded, hsame⟩ := loadKeys_registered hkeys hfiles
  have hrestart : restartEngine disk freshKey freshPayload kemSecretKey =
      some ⟨e.activeKeyVersion, loaded, e.key, (disk.payload.getD freshPayload).1,
        kemSecretKey⟩ := by
    simp only [restartEngine, hregistry, hloaded, Option.bind_some, hsame, he.active,
      Option.map_some]
  refine ⟨_, hrestart, keysRetained_congr he rfl rfl hsame, ?_, ?_⟩
  · constructor
    · exact ⟨keys, hregistry, fun v => (loadKeys_lookup hloaded v).1⟩
    · intro v key hkey
      exact h.stored v key ((hsame v).symm.trans hkey)
  · intro v key hkey
    exact (hsame v).trans hkey

theorem stopped_harmless {e rotated : CryptoEngine} {disk : DiskFiles} {keyBytes : Key}
    (he : KeysRetained e) (h : OnDisk e disk) (hrotated : rotatedEngine e keyBytes = some rotated)
    {pieces : ℕ} {keyCuts : List (Fin 32)} {k : ℕ} (hk : Harmless pieces keyCuts k) :
    ∃ e', KeysRetained e' ∧ OnDisk e' (stoppedFiles rotated pieces keyCuts k disk) ∧
      KeysKept e e' := by
  obtain ⟨hretained, hkept, hnew, hother⟩ := rotatedEngine_retained he hrotated
  rcases hk with hearly | hlate
  · exact ⟨e, he, stopped_early h hnew pieces keyCuts hearly, fun _ _ hkey => hkey⟩
  · rw [← rotateSteps_count rotated] at hlate
    exact ⟨rotated, hretained, stopped_late h hretained hother pieces keyCuts hlate, hkept⟩

structure Sound (s : CryptoEngine × DiskFiles) : Prop where
  keys : KeysRetained s.1
  onDisk : OnDisk s.1 s.2

theorem crashStep_sound {s s' : CryptoEngine × DiskFiles} {a : CrashAction} (hs : Sound s)
    (ha : Survivable s a) (h : crashStep s a = some s') : Sound s' ∧ KeysKept s.1 s'.1 := by
  cases a with
  | rotateMasterKey keyBytes =>
    obtain ⟨rotated, hrotated, rfl⟩ := Option.map_eq_some_iff.mp h
    obtain ⟨hretained, hkept, -, hother⟩ := rotatedEngine_retained hs.keys hrotated
    have hdone := stopped_late hs.onDisk hretained hother 0 [] (le_refl _)
    rw [stoppedFiles, List.take_length] at hdone
    exact ⟨⟨hretained, hdone⟩, hkept⟩
  | restart freshKey freshPayload kemSecretKey =>
    obtain ⟨e, he, rfl⟩ := Option.map_eq_some_iff.mp h
    obtain ⟨e', he', hretained, hdisk, hkept⟩ :=
      restart_onDisk hs.keys hs.onDisk freshKey freshPayload kemSecretKey
    obtain rfl : e' = e := Option.some.inj (he'.symm.trans he)
    exact ⟨⟨hretained, hdisk⟩, hkept⟩
  | crash keyBytes pieces keyCuts k freshKey freshPayload kemSecretKey =>
    obtain ⟨rotated, hrotated, h⟩ := Option.bind_eq_some_iff.mp h
    obtain ⟨e, he, rfl⟩ := Option.map_eq_some_iff.mp h
    obtain ⟨left, hleft, hdisk, hkept⟩ := stopped_harmless hs.keys hs.onDisk hrotated ha
    obtain ⟨e', he', hretained, hdisk', hkept'⟩ :=
      restart_onDisk hleft hdisk freshKey freshPayload kemSecretKey
    obtain rfl : e' = e := Option.some.inj (he'.symm.trans he)
    exact ⟨⟨hretained, hdisk'⟩, hkept.trans hkept'⟩

theorem run_sound {s s' : CryptoEngine × DiskFiles} (hs : Sound s)
    (h : Reaches crashStep Survivable s s') : Sound s' ∧ KeysKept s.1 s'.1 := by
  induction h with
  | start => exact ⟨hs, fun _ _ hkey => hkey⟩
  | next _ ha hstep ih =>
    obtain ⟨hsound, hkept⟩ := crashStep_sound ih.1 ha hstep
    exact ⟨hsound, ih.2.trans hkept⟩

theorem start_sound {files : KeyFiles} {freshKey freshPayload : Key} {kemSecretKey : Bytes}
    {s : CryptoEngine × KeyFiles} {disk : DiskFiles} (hfiles : OrderedRegistry files)
    (hstart : loadOrGenerateKey files freshKey freshPayload kemSecretKey = some s)
    (hdisk : Shows disk s.2) : Sound (s.1, disk) := by
  obtain ⟨hkeys, ⟨⟨keys, hregistry, hmem⟩, hstored⟩⟩ := load_retained hfiles hstart
  constructor
  · exact hkeys
  · constructor
    · refine ⟨keys, ?_, hmem⟩
      rw [hdisk.registry, hregistry]
      rfl
    · intro v key hkey
      rw [hdisk.versioned, hstored v (AList.lookup_isSome.mp (by rw [hkey]; rfl)), hkey]
      rfl

/-- A new process starts on these files, and it opens every blob which was
sealed at some time between the first state and the last. -/
def Recovers (P : Primitives) (s₀ s : CryptoEngine × DiskFiles) (disk : DiskFiles) : Prop :=
  ∀ freshKey freshPayload kemSecretKey, ∃ e',
    restartEngine disk freshKey freshPayload kemSecretKey = some e' ∧
    ∀ s₁, Reaches crashStep Survivable s₀ s₁ → Reaches crashStep Survivable s₁ s →
      ∀ iv plaintext, decryptBlob P e' (encryptBlob P s₁.1 iv plaintext) = .ok plaintext

/-- The next process is lost exactly when the old one stops between the
truncation of the registry and the completion of the key file. -/
theorem crash_recovers_iff (P : Primitives) (files : KeyFiles) (freshKey freshPayload : Key)
    (kemSecretKey : Bytes) (start : CryptoEngine × KeyFiles) (disk : DiskFiles)
    (s : CryptoEngine × DiskFiles) (keyBytes : Key) (rotated : CryptoEngine) (pieces : ℕ)
    (keyCuts : List (Fin 32)) (k : ℕ) (hfiles : OrderedRegistry files)
    (hstart : loadOrGenerateKey files freshKey freshPayload kemSecretKey = some start)
    (hdisk : Shows disk start.2) (hs : Reaches crashStep Survivable (start.1, disk) s)
    (hrotated : rotatedEngine s.1 keyBytes = some rotated) :
    Recovers P (start.1, disk) s (stoppedFiles rotated pieces keyCuts k s.2) ↔
      Harmless pieces keyCuts k := by
  have hfirst := start_sound hfiles hstart hdisk
  have hsound := (run_sound hfirst hs).1
  constructor
  · intro hrecovers
    by_contra hk
    unfold Harmless at hk
    rw [not_or, not_le, not_le, ← rotateSteps_count rotated] at hk
    have hbroken := stopped_broken rotated pieces keyCuts hk.1 hk.2 s.2
    have hretained := (rotatedEngine_retained hsound.keys hrotated).1
    obtain ⟨e', he', -⟩ := hrecovers freshKey freshPayload kemSecretKey
    rw [restart_broken hretained hbroken] at he'
    cases he'
  · intro hk freshKey freshPayload kemSecretKey
    obtain ⟨left, hleft, honDisk, hkept⟩ := stopped_harmless hsound.keys hsound.onDisk hrotated hk
    obtain ⟨e', he', -, -, hkept'⟩ :=
      restart_onDisk hleft honDisk freshKey freshPayload kemSecretKey
    refine ⟨e', he', ?_⟩
    intro s₁ hs₁ hlater iv plaintext
    have hsealed := (run_sound hfirst hs₁).1
    have hkeep := (run_sound hsealed hlater).2
    exact decryptBlob_encryptBlob P s₁.1 e' iv plaintext hsealed.keys
      (hkept' _ _ (hkept _ _ (hkeep _ _ hsealed.keys.active)))

/-- The files after a first start, with a key of zeros. -/
def firstDisk : DiskFiles :=
  ⟨some (.whole ⟨1, [1]⟩), some zeroKey.1, (∅ : AList (fun _ : ℤ => Bytes)).insert 1 zeroKey.1,
    some zeroKey⟩

theorem firstDisk_shows : Shows firstDisk (firstKey ∅ zeroKey zeroKey []).2 := by
  constructor
  · rfl
  · rfl
  · intro v
    change ((∅ : AList (fun _ : ℤ => Bytes)).insert 1 zeroKey.1).lookup v =
      (((∅ : KeyVersions).insert 1 zeroKey).lookup v).map (·.1)
    by_cases hv : v = 1
    · rw [hv, AList.lookup_insert, AList.lookup_insert]
      rfl
    · rw [AList.lookup_insert_ne hv, AList.lookup_insert_ne hv]
      rfl
  · rfl

/-- A rotation, a restart, and a rotation that stops when its key file is open. -/
theorem crash_recovers_opened : ∃ s rotated,
    exec crashStep [.rotateMasterKey (Block.read 32 [1]), .restart zeroKey zeroKey []]
      ((firstKey ∅ zeroKey zeroKey []).1, firstDisk) = some s ∧
    rotatedEngine s.1 (Block.read 32 [2]) = some rotated ∧ rotated.activeKeyVersion = 3 ∧
    Recovers standInPrimitives ((firstKey ∅ zeroKey zeroKey []).1, firstDisk) s
      (stoppedFiles rotated 0 [] 1 s.2) := by
  have hfiles : OrderedRegistry noKeyFiles := by
    intro registry hregistry
    cases hregistry
  refine ⟨_, _, rfl, rfl, rfl, ?_⟩
  have hrun : Reaches crashStep Survivable ((firstKey ∅ zeroKey zeroKey []).1, firstDisk) _ :=
    (Reaches.start.next (a := .rotateMasterKey (Block.read 32 [1])) trivial rfl).next
      (a := .restart zeroKey zeroKey []) trivial rfl
  exact (crash_recovers_iff standInPrimitives noKeyFiles zeroKey zeroKey [] _ firstDisk _
    (Block.read 32 [2]) _ 0 [] 1 hfiles rfl firstDisk_shows hrun rfl).mpr (.inl (le_refl 1))

/-- A crash of the first rotation, after the truncation of the registry or when
the registry is whole: no process starts any more. -/
theorem crash_unbootable : ∃ rotated,
    rotatedEngine (firstKey ∅ zeroKey zeroKey []).1 (Block.read 32 [1]) = some rotated ∧
    restartEngine (stoppedFiles rotated 0 [] 2 firstDisk) zeroKey zeroKey [] = none ∧
    restartEngine (stoppedFiles rotated 0 [] 3 firstDisk) zeroKey zeroKey [] = none := by
  exact ⟨_, rfl, rfl, rfl⟩

end PqFl.RotationCrashes
