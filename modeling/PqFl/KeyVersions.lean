import PqFl.CheckpointWrites
import PqFl.RetainedKeys

/-!
# Key versions in the store

A rotation takes effect in the engine first and is written to the store in a
second step; an aggregation seals its blob first and asks for the key version
in a second step. What is written last need not be what is true last.
-/

set_option autoImplicit false

namespace PqFl.KeyVersions
open PqFl.Identifiers PqFl.StoreRecords PqFl.StateStore PqFl.ListUpdate PqFl.Crypto
open PqFl.Aggregation PqFl.Buffer PqFl.Services PqFl.Process PqFl.ServerStore PqFl.JobSteps
open PqFl.CertificateBinding PqFl.ModelSteps PqFl.CheckpointWrites PqFl.RetainedKeys PqFl.Runs
open PqFl.Configuration PqFl.Floats
open PqFl.StoreRuns (Operation perform)

variable {F : Type} {d : Deployment F} {s s' : Server F} {a : Action F}

def headerVersion (blob : Bytes) : ℤ := castInt (readUint32BigEndian (blob.drop 4))

def SealedUnder (files : CheckpointFiles) (path : String) (keyVersion : ℤ) : Prop :=
  ∃ blob, readFile files path = some blob ∧ headerVersion blob = keyVersion

theorem initial_retained (d : Deployment F) (start : Start) :
    Retained ((initial d start).world.crypto, (initial d start).world.keyFiles) :=
  firstKey_retained noKeyFiles start.freshKey start.freshPayload start.kemSecretKey

theorem submitOperation_ne (q : SubmitWeightsRequest) (p : SubmitPoint F) (v : ℤ) :
    submitOperation d q p ≠ some (.updateActiveKeyVersion v) := by
  cases p with
  | _ => simp [submitOperation]

theorem federatedOperation_ne (now : ℕ) (call : FederatedCall F) (v : ℤ) :
    federatedOperation d now call ≠ some (.updateActiveKeyVersion v) := by
  cases call with
  | registerClient info p =>
    cases p with
    | _ => simp [federatedOperation]
  | trainingConfig q p =>
    cases p with
    | _ => simp [federatedOperation]
  | submitWeights q peer serial p => exact submitOperation_ne q p v

theorem callOperation_keyVersion {call : Call F} {v : ℤ}
    (h : callOperation d call = some (.updateActiveKeyVersion v)) : call = .rotateAtRestKey v := by
  cases call with
  | registerWorker q peer p =>
    cases p with
    | _ => simp [callOperation] at h
  | leaseTrainingTask q worker p =>
    cases p with
    | _ => simp [callOperation] at h
  | rollbackModel target p => simp [callOperation] at h
  | rotateAtRestKey keyVersion =>
    simp only [callOperation, Option.some.injEq, Operation.updateActiveKeyVersion.injEq] at h
    rw [h]

theorem storeOperation_keyVersion {now : ℕ} {v : ℤ}
    (h : storeOperation d s a = some (.updateActiveKeyVersion v, now)) :
    ∃ i, a = .call i now ∧ s.calls[i]? = some (.rotateAtRestKey v) := by
  cases a with
  | proceed o =>
    obtain ⟨op, hop, heq⟩ := Option.map_eq_some_iff.mp h
    obtain ⟨call, -, hcall⟩ := Option.bind_eq_some_iff.mp hop
    obtain ⟨rfl, -⟩ := Prod.mk.inj heq
    exact absurd hcall (federatedOperation_ne o.now call v)
  | call i now' =>
    obtain ⟨op, hop, heq⟩ := Option.map_eq_some_iff.mp h
    obtain ⟨call, hi, hcall⟩ := Option.bind_eq_some_iff.mp hop
    obtain ⟨rfl, rfl⟩ := Prod.mk.inj heq
    obtain rfl := callOperation_keyVersion hcall
    exact ⟨i, rfl, hi⟩
  | registerWorker q peer now' =>
    simp only [storeOperation] at h
    split at h
    · cases h
    · cases h
  | reportTaskStatus q peer now' =>
    simp only [storeOperation] at h
    split at h
    · cases h
    · cases h
  | heartbeat q peer now' =>
    simp only [storeOperation] at h
    split at h
    · cases h
    · cases h
  | upsertDataset q peer now' =>
    simp only [storeOperation] at h
    split at h
    · cases h
    · cases h
  | createTrainingJob q peer now' =>
    simp only [storeOperation] at h
    split at h
    · cases h
    · cases h
  | rollbackModel q peer now' =>
    simp only [storeOperation] at h
    split at h
    · cases h
    · cases h
  | _ => cases h

/-- A blob which is sealed but not recorded yet. -/
def SealedPoint (s : Server F) : SubmitPoint F → Prop
  | .keyVersion _ p =>
    SealedUnder s.world.files p.checkpointPath s.world.crypto.activeKeyVersion
  | .record _ p v => SealedUnder s.world.files p.checkpointPath v
  | _ => True

structure Tracked (s : Server F) : Prop where
  retained : Retained (s.world.crypto, s.world.keyFiles)
  pending : s.world.store.activeKeyVersion = s.world.crypto.activeKeyVersion ∨
    .rotateAtRestKey s.world.crypto.activeKeyVersion ∈ s.calls
  records : ∀ m ∈ s.world.store.models, SealedUnder s.world.files m.checkpointPath m.keyVersion
  point : ∀ c, submitting s = some c → SealedPoint s c.point

theorem sealedPoint_unlocked (s : Server F) {p : SubmitPoint F} (h : p.locksBuffer = false) :
    SealedPoint s p := by
  cases p with
  | keyVersion job p => cases h
  | record job p v => cases h
  | _ => trivial

theorem initial_tracked (d : Deployment F) (start : Start) : Tracked (initial d start) where
  retained := initial_retained d start
  pending := .inl rfl
  records := by
    intro m hm
    cases hm
  point := by
    intro c hc
    cases hc

/-- The records and the blob in hand, as they have to be. -/
structure Sealed (s : Server F) : Prop where
  records : ∀ m ∈ s.world.store.models, SealedUnder s.world.files m.checkpointPath m.keyVersion
  point : ∀ c, submitting s = some c → SealedPoint s c.point

theorem Sealed.unlocked {models : List PersistedModelRecord} {files : CheckpointFiles}
    (hmodels : s'.world.store.models = models) (hfiles : s'.world.files = files)
    (h : ∀ m ∈ models, SealedUnder files m.checkpointPath m.keyVersion) (hnext : Unlocked s') :
    Sealed s' where
  records := by
    rw [hmodels, hfiles]
    exact h
  point c hc := sealedPoint_unlocked s' (hnext c hc)

theorem sealed_sameVersions {models models' : List PersistedModelRecord} {files : CheckpointFiles}
    (h : ∀ m ∈ models, SealedUnder files m.checkpointPath m.keyVersion)
    (hsame : List.Forall₂ SameVersion models models') :
    ∀ m ∈ models', SealedUnder files m.checkpointPath m.keyVersion := by
  intro y hy
  obtain ⟨x, hx, hxy⟩ := forall₂_of_mem hsame hy
  rw [hxy]
  exact h x hx

theorem startSubmitWeights_unlocked (g : ClientRegistry.Registry) (q : SubmitWeightsRequest)
    (peer : Peer) : (startSubmitWeights g q peer : SubmitPoint F).locksBuffer = false := by
  unfold startSubmitWeights
  split
  · rfl
  split
  · rfl
  · rfl

theorem Tracked.sealed (hs : Tracked s) (hfiles : s'.world.files = s.world.files)
    (hcrypto : s'.world.crypto = s.world.crypto) (hsubmitting : submitting s' = submitting s)
    (hmodels : List.Forall₂ SameVersion s.world.store.models s'.world.store.models) :
    Sealed s' := by
  constructor
  · rw [hfiles]
    exact sealed_sameVersions hs.records hmodels
  · intro c hc
    rw [hsubmitting] at hc
    have hpoint := hs.point c hc
    unfold SealedPoint at *
    rw [hfiles, hcrypto]
    exact hpoint

variable [FloatArith F]

structure KeyVersionsAgree (s : Server F) : Prop where
  active : s.world.store.activeKeyVersion = s.world.crypto.activeKeyVersion
  records : ∀ m ∈ s.world.store.models, SealedUnder s.world.files m.checkpointPath m.keyVersion

/-- The version of the engine is the one that is written to the store last; no
key is rotated between a seal and the question for its version; and no
checkpoint of a stored model is written again under another key. -/
def InTurn (d : Deployment F) (s : Server F) : Action F → Prop
  | .call i _ => ∀ v, s.calls[i]? = some (.rotateAtRestKey v) →
      v = s.world.crypto.activeKeyVersion ∨
        .rotateAtRestKey s.world.crypto.activeKeyVersion ∈ s.calls
  | .rotateAtRestKey _ peer => isAuthorizedAdmin d peer = true →
      ∀ c job p, submitting s = some c → c.point ≠ .keyVersion job p
  | .proceed o => ∀ c job weights, submitting s = some c → c.point = .add job weights →
      Aggregates d.config.toAggregationConfig s.world.buffer (submission d.config c.q job weights) →
      o.draw.persistence ≠ .cannotOpen → ∀ m ∈ s.world.store.models,
        resolvePath m.checkpointPath = resolvePath (checkpointPath d.config.checkpointDir
          (normalizeTenant c.q.tenantId) (normalizeModel c.q.modelId) c.q.roundIndex) →
        o.draw.persistence = .written ∧ m.keyVersion = s.world.crypto.activeKeyVersion
  | _ => True

theorem headerVersion_encryptBlob (P : Primitives) {e : CryptoEngine} (h : KeysRetained e)
    (iv : Block 12) (plaintext : Bytes) :
    headerVersion (encryptBlob P e iv plaintext) = e.activeKeyVersion := by
  have hmagic : blobMagic.length = 4 := rfl
  have hword : (e.activeKeyVersion % 2^32).toNat < 2^32 := by omega
  unfold headerVersion encryptBlob
  simp only [List.append_assoc]
  rw [List.drop_left' hmagic, readUint32_write _ _ hword, castInt_version h.positive h.fits]

theorem SealedUnder.insert {files : CheckpointFiles} {path : String} {keyVersion : ℤ}
    (h : SealedUnder files path keyVersion) {file : List (List Char)} {blob : Bytes}
    (hblob : resolvePath path = file → headerVersion blob = keyVersion) :
    SealedUnder (files.insert file blob) path keyVersion := by
  obtain ⟨old, hold, hversion⟩ := h
  unfold SealedUnder readFile at *
  by_cases hfile : resolvePath path = file
  · rw [← hfile]
    exact ⟨blob, AList.lookup_insert _, hblob hfile⟩
  · rw [AList.lookup_insert_ne hfile]
    exact ⟨old, hold, hversion⟩

theorem SealedUnder.erase {files : CheckpointFiles} {path : String} {keyVersion : ℤ}
    (h : SealedUnder files path keyVersion) {file : List (List Char)}
    (hfile : resolvePath path ≠ file) : SealedUnder (files.erase file) path keyVersion := by
  obtain ⟨blob, hblob, hversion⟩ := h
  refine ⟨blob, ?_, hversion⟩
  unfold readFile at *
  rw [AList.lookup_erase_ne hfile, hblob]

theorem proceedSubmit_keys (c : Submitting F) (o : Oracle F) :
    (proceedSubmit d s c.q c.peer c.serial o c.point).world.crypto = s.world.crypto ∧
    (proceedSubmit d s c.q c.peer c.serial o c.point).world.keyFiles = s.world.keyFiles := by
  have hstep := proceed_submitStep (d := d) (s := s) c o
  generalize proceedSubmit d s c.q c.peer c.serial o c.point = s' at hstep
  have hkeys : (modelView s').crypto = (modelView s).crypto ∧
      (modelView s').keyFiles = (modelView s).keyFiles := by
    cases hstep with
    | on _ hview _ => exact ⟨congrArg ModelView.crypto hview, congrArg ModelView.keyFiles hview⟩
    | removed _ _ _ hview _ => rw [hview]; exact ⟨rfl, rfl⟩
    | written _ _ _ _ hview _ => rw [hview]; exact ⟨rfl, rfl⟩
    | keyVersion _ hview _ => rw [hview]; exact ⟨rfl, rfl⟩
    | recorded _ hview _ => rw [hview]; exact ⟨rfl, rfl⟩
    | published _ hview _ => rw [hview]; exact ⟨rfl, rfl⟩
  exact hkeys

theorem step_sameKeys (h : Process.step d s a = some s')
    (hrotate : ∀ keyBytes peer, a ≠ .rotateAtRestKey keyBytes peer)
    (hrestart : ∀ start, a ≠ .restart start) :
    s'.world.crypto = s.world.crypto ∧ s'.world.keyFiles = s.world.keyFiles := by
  cases step_modelStep h with
  | kept hkept => exact ⟨hkept.crypto, hkept.keyFiles⟩
  | submit hidle => exact ⟨rfl, rfl⟩
  | proceed hc => exact proceedSubmit_keys _ _
  | rollback htarget => exact ⟨rfl, rfl⟩
  | unreadable hcall hread => exact ⟨rfl, rfl⟩
  | readable hcall hread => exact ⟨rfl, rfl⟩
  | restored hcall hfree => exact ⟨rfl, rfl⟩
  | rotated hrotated => exact absurd rfl (hrotate _ _)
  | restart hs => exact absurd rfl (hrestart _)

theorem step_keys (h : Process.step d s a = some s') :
    (s'.world.crypto = s.world.crypto ∧ s'.world.keyFiles = s.world.keyFiles) ∨
    ∃ b, keyStep (s.world.crypto, s.world.keyFiles) b = some (s'.world.crypto, s'.world.keyFiles) := by
  cases a with
  | rotateAtRestKey keyBytes peer =>
    simp only [Process.step, startRotateAtRestKey] at h
    split at h
    · cases h
      exact .inl ⟨rfl, rfl⟩
    · obtain ⟨rotated, hrotated, rfl⟩ := Option.map_eq_some_iff.mp h
      exact .inr ⟨.rotateMasterKey keyBytes, hrotated⟩
  | restart start =>
    obtain ⟨w, hw, rfl⟩ := Option.map_eq_some_iff.mp h
    obtain ⟨keys, hkeys, rfl⟩ := Option.map_eq_some_iff.mp hw
    exact .inr ⟨.restart start.freshKey start.freshPayload start.kemSecretKey, hkeys⟩
  | _ => exact .inl (step_sameKeys h (by simp) (by simp))

theorem step_retained (hs : Retained (s.world.crypto, s.world.keyFiles))
    (h : Process.step d s a = some s') :
    Retained (s'.world.crypto, s'.world.keyFiles) ∧ KeysKept s.world.crypto s'.world.crypto := by
  rcases step_keys h with ⟨hcrypto, hfiles⟩ | ⟨b, hb⟩
  · rw [hcrypto, hfiles]
    exact ⟨hs, fun _ _ hkey => hkey⟩
  · exact keyStep_retained hs hb

theorem push_activeKeyVersion (x : StateStore) (event : PersistedAuditEvent) :
    (pushAuditEvent x event).activeKeyVersion = x.activeKeyVersion :=
  congrArg (fun kept => kept.2.2) (StoreRuns.settings_push x event)

theorem update_activeKeyVersion (x : StateStore) (v : ℤ) (now : ℕ) :
    (updateActiveKeyVersion x v now).store.activeKeyVersion = v := by
  unfold updateActiveKeyVersion
  split
  · assumption
  · exact push_activeKeyVersion _ _

theorem perform_activeKeyVersion (x : StateStore) (now : ℕ) {op : Operation}
    (h : ∀ v, op ≠ .updateActiveKeyVersion v) :
    (perform x now op).store.activeKeyVersion = x.activeKeyVersion := by
  by_cases hdataset : ∃ record, op = .upsertDataset record
  · obtain ⟨record, rfl⟩ := hdataset
    simp only [perform, StoreRuns.written, upsertDataset]
    split
    · exact push_activeKeyVersion _ _
    · exact push_activeKeyVersion _ _
  · have hsettings := StoreRuns.perform_settings x now
      (fun record heq => hdataset ⟨record, heq⟩) h
    exact congrArg (fun kept => kept.2.2) hsettings

theorem step_activeKeyVersion (h : Process.step d s a = some s')
    (hrestart : ∀ start, a ≠ .restart start) :
    s'.world.store.activeKeyVersion = s.world.store.activeKeyVersion ∨
    ∃ i now v, a = .call i now ∧ s.calls[i]? = some (.rotateAtRestKey v) ∧
      s'.world.store.activeKeyVersion = v := by
  have hstore := step_store h hrestart
  cases hop : storeOperation d s a with
  | none =>
    rw [hop] at hstore
    rw [hstore]
    exact .inl rfl
  | some performed =>
    obtain ⟨op, now⟩ := performed
    rw [hop] at hstore
    by_cases hversion : ∃ v, op = .updateActiveKeyVersion v
    · obtain ⟨v, rfl⟩ := hversion
      obtain ⟨i, rfl, hi⟩ := storeOperation_keyVersion hop
      refine .inr ⟨i, now, v, rfl, hi, ?_⟩
      rw [hstore]
      exact update_activeKeyVersion _ v now
    · left
      rw [hstore]
      exact perform_activeKeyVersion _ now (fun v hv => hversion ⟨v, hv⟩)

theorem step_rotations (h : Process.step d s a = some s') (hrestart : ∀ start, a ≠ .restart start)
    {v : ℤ} (hv : .rotateAtRestKey v ∈ s.calls) :
    .rotateAtRestKey v ∈ s'.calls ∨
      ∃ i now, a = .call i now ∧ s.calls[i]? = some (.rotateAtRestKey v) := by
  cases step_stepped h with
  | refused hrequest => exact .inl hv
  | registerClient hidle hpasses => exact .inl hv
  | getTrainingConfig hidle hpasses => exact .inl hv
  | submitWeights hidle => exact .inl hv
  | registering hcall => exact .inl hv
  | configuring hcall => exact .inl hv
  | submitting hcall => exact .inl hv
  | registerWorker hworker hpasses => exact .inl (List.mem_append_left _ hv)
  | leaseTrainingTask hworker hpasses hknown => exact .inl (List.mem_append_left _ hv)
  | reportTaskStatus hworker hpasses => exact .inl hv
  | heartbeat hworker hpasses => exact .inl hv
  | upsertDataset hadmin hpasses => exact .inl hv
  | createTrainingJob hadmin hpasses hdataset => exact .inl hv
  | rollbackMissed hadmin hpasses hmissed => exact .inl hv
  | rollbackModel hadmin hpasses htarget => exact .inl (List.mem_append_left _ hv)
  | rotateAtRestKey hadmin hrotated => exact .inl (List.mem_append_left _ hv)
  | @call i now call next hcall hnext =>
    rcases mem_replaceCall_of_mem hcall next.2.1 hv with rfl | hkept
    · exact .inr ⟨i, now, rfl, hcall⟩
    · exact .inl hkept
  | restart hs => exact absurd rfl (hrestart _)

theorem stored_rotation {i now : ℕ} {v : ℤ} (h : Process.step d s (.call i now) = some s')
    (hi : s.calls[i]? = some (.rotateAtRestKey v)) :
    s'.world.store.activeKeyVersion = v ∧ s'.calls = replaceCall s.calls i none := by
  simp only [Process.step, stepCallAt, hi, Option.bind_some, stepCall, Option.map_some,
    Option.some.injEq] at h
  subst h
  exact ⟨update_activeKeyVersion _ v now, rfl⟩

theorem step_pending (hs : Tracked s) (ha : InTurn d s a) (h : Process.step d s a = some s')
    (hrestart : ∀ start, a ≠ .restart start) :
    s'.world.store.activeKeyVersion = s'.world.crypto.activeKeyVersion ∨
      .rotateAtRestKey s'.world.crypto.activeKeyVersion ∈ s'.calls := by
  by_cases hrotation : ∃ i now v, a = .call i now ∧ s.calls[i]? = some (.rotateAtRestKey v)
  · obtain ⟨i, now, v, rfl, hi⟩ := hrotation
    obtain ⟨hactive, hcalls⟩ := stored_rotation h hi
    rw [(step_sameKeys h (by simp) hrestart).1, hactive, hcalls]
    rcases ha v hi with hnewest | hlater
    · exact .inl hnewest
    · by_cases hv : v = s.world.crypto.activeKeyVersion
      · exact .inl hv
      · right
        have hother : Call.rotateAtRestKey s.world.crypto.activeKeyVersion ≠
            (.rotateAtRestKey v : Call F) := by
          intro heq
          exact hv (Call.rotateAtRestKey.inj heq).symm
        exact (mem_replaceCall_of_mem hi none hlater).resolve_left hother
  · have hstore : s'.world.store.activeKeyVersion = s.world.store.activeKeyVersion := by
      rcases step_activeKeyVersion h hrestart with hsame | ⟨i, now, v, hcall, hi, -⟩
      · exact hsame
      · exact absurd ⟨i, now, v, hcall, hi⟩ hrotation
    by_cases hrotate : ∃ keyBytes peer, a = .rotateAtRestKey keyBytes peer
    · obtain ⟨keyBytes, peer, rfl⟩ := hrotate
      simp only [Process.step, startRotateAtRestKey] at h
      split at h
      · cases h
        exact hs.pending
      · obtain ⟨rotated, -, rfl⟩ := Option.map_eq_some_iff.mp h
        exact .inr (List.mem_append_right _ List.mem_cons_self)
    · have hcrypto := (step_sameKeys h
        (fun keyBytes peer heq => hrotate ⟨keyBytes, peer, heq⟩) hrestart).1
      rw [hstore, hcrypto]
      rcases hs.pending with hsame | hpending
      · exact .inl hsame
      · rcases step_rotations h hrestart hpending with hkept | ⟨i, now, hcall, hi⟩
        · exact .inr hkept
        · exact absurd ⟨i, now, _, hcall, hi⟩ hrotation

theorem submit_sealed {c : Submitting F} {o : Oracle F} (hs : Tracked s)
    (ha : InTurn d s (.proceed o)) (hc : submitting s = some c) (h : SubmitStep d s c o s') :
    Sealed s' := by
  have hpoint := hs.point c hc
  cases h with
  | on hunlocked hview hnext =>
    exact .unlocked (congrArg ModelView.models hview) (congrArg ModelView.files hview) hs.records
      hnext
  | removed hadd haggregates htorn hview hnext =>
    apply Sealed.unlocked (congrArg ModelView.models hview) (congrArg ModelView.files hview) _ hnext
    intro m hm
    apply (hs.records m hm).erase
    intro hpath
    exact htorn.1 (ha c _ _ hc hadd haggregates htorn.2 m hm hpath).1
  | @written job weights p hadd haggregates hwritten hpath hview hnext =>
    have hfiles : s'.world.files = s.world.files.insert (resolvePath p.checkpointPath)
        (encryptBlob d.primitives s.world.crypto o.draw.iv (floatBytes p.result)) :=
      congrArg ModelView.files hview
    have hcrypto : s'.world.crypto = s.world.crypto := congrArg ModelView.crypto hview
    have hmodels : s'.world.store.models = s.world.store.models := congrArg ModelView.models hview
    have hheader := headerVersion_encryptBlob d.primitives hs.retained.keys o.draw.iv
      (floatBytes p.result)
    constructor
    · rw [hmodels, hfiles]
      intro m hm
      apply (hs.records m hm).insert
      intro hsame
      rw [hpath] at hsame
      rw [hheader, (ha c _ _ hc hadd haggregates (by simp [hwritten]) m hm hsame).2]
    · intro c' hc'
      obtain rfl := Option.some.inj (hnext.symm.trans hc')
      unfold SealedPoint SealedUnder readFile
      dsimp only
      rw [hfiles, hcrypto]
      exact ⟨_, AList.lookup_insert _, hheader⟩
  | keyVersion hkeyVersion hview hnext =>
    have hfiles : s'.world.files = s.world.files := congrArg ModelView.files hview
    have hmodels : s'.world.store.models = s.world.store.models := congrArg ModelView.models hview
    rw [hkeyVersion] at hpoint
    constructor
    · rw [hmodels, hfiles]
      exact hs.records
    · intro c' hc'
      obtain rfl := Option.some.inj (hnext.symm.trans hc')
      unfold SealedPoint
      dsimp only
      rw [hfiles]
      exact hpoint
  | @recorded job p v hrecord hview hnext =>
    have hfiles : s'.world.files = s.world.files := congrArg ModelView.files hview
    rw [hrecord] at hpoint
    constructor
    · rw [show s'.world.store.models = _ from congrArg ModelView.models hview, hfiles]
      apply forall_append_one
      · exact sealed_sameVersions hs.records (deactivate_sameVersions _ _ _)
      · exact hpoint
    · intro c' hc'
      obtain rfl := Option.some.inj (hnext.symm.trans hc')
      trivial
  | published hpublish hview hnext =>
    exact .unlocked (congrArg ModelView.models hview) (congrArg ModelView.files hview) hs.records
      hnext

theorem step_sealed (hs : Tracked s) (ha : InTurn d s a) (h : Process.step d s a = some s')
    (hrestart : ∀ start, a ≠ .restart start) : Sealed s' := by
  have hsame : List.Forall₂ SameVersion s.world.store.models s.world.store.models :=
    sameVersions_of_eq rfl
  by_cases hrotate : ∃ keyBytes peer, a = .rotateAtRestKey keyBytes peer
  · obtain ⟨keyBytes, peer, rfl⟩ := hrotate
    simp only [Process.step, startRotateAtRestKey] at h
    split at h
    · cases h
      exact ⟨hs.records, hs.point⟩
    · rename_i hadmin
      obtain ⟨rotated, -, rfl⟩ := Option.map_eq_some_iff.mp h
      refine ⟨hs.records, ?_⟩
      intro c hc
      have hpoint := hs.point c hc
      have hturn := ha (by simpa using hadmin) c
      unfold SealedPoint at *
      split
      · rename_i job p hkeyVersion
        exact absurd hkeyVersion (hturn job p hc)
      · rename_i hrecord
        rw [hrecord] at hpoint
        exact hpoint
      · trivial
  · cases step_modelStep h with
    | kept hkept =>
      apply hs.sealed hkept.files hkept.crypto hkept.submitting
      rw [hkept.models]
      exact hsame
    | submit hidle =>
      refine ⟨hs.records, ?_⟩
      rintro c ⟨⟩
      exact sealedPoint_unlocked _ (startSubmitWeights_unlocked _ _ _)
    | @proceed c o hc => exact submit_sealed hs ha hc (proceed_submitStep c o)
    | rollback htarget => exact hs.sealed rfl rfl rfl (rollback_sameVersions _ _ _ _ _)
    | unreadable hcall hread => exact hs.sealed rfl rfl rfl hsame
    | readable hcall hread => exact hs.sealed rfl rfl rfl hsame
    | restored hcall hfree => exact hs.sealed rfl rfl rfl hsame
    | rotated hrotated => exact absurd ⟨_, _, rfl⟩ hrotate
    | restart hs => exact absurd rfl (hrestart _)

theorem step_tracked (hr : StoreReached s) (hs : Tracked s) (ha : InTurn d s a)
    (h : Process.step d s a = some s') : Tracked s' := by
  have hretained := (step_retained hs.retained h).1
  by_cases hrestart : ∃ start, a = .restart start
  · obtain ⟨start, rfl⟩ := hrestart
    have hrestarted := restart_restarted hr h
    refine ⟨hretained, .inl ?_, ?_, ?_⟩
    · obtain ⟨w, hw, rfl⟩ := Option.map_eq_some_iff.mp h
      obtain ⟨keys, hkeys, rfl⟩ := Option.map_eq_some_iff.mp hw
      exact update_activeKeyVersion _ _ _
    · rw [hrestarted.models, hrestarted.files]
      exact hs.records
    · intro c hc
      rw [submitting, hrestarted.federated] at hc
      cases hc
  · have hno : ∀ start, a ≠ .restart start := fun start heq => hrestart ⟨start, heq⟩
    obtain ⟨hrecords, hpoint⟩ := step_sealed hs ha h hno
    exact ⟨hretained, step_pending hs ha h hno, hrecords, hpoint⟩

/-- While rotations and aggregations take turns, store, engine and checkpoints
agree on the key versions whenever nothing is in progress. -/
theorem key_versions_agree (d : Deployment F) (start : Start) (s : Server F)
    (h : Reaches (Process.step d) (InTurn d) (initial d start) s) (hq : Quiet s) :
    KeyVersionsAgree s := by
  have hall : StoreReached s ∧ Tracked s := by
    apply h.invariant (I := fun s => StoreReached s ∧ Tracked s)
    · exact ⟨initial_storeReached d start, initial_tracked d start⟩
    · intro s a s' hs ha hstep
      exact ⟨step_storeReached hs.1 hstep, step_tracked hs.1 hs.2 ha hstep⟩
  obtain ⟨-, hs⟩ := hall
  constructor
  · rcases hs.pending with hactive | hpending
    · exact hactive
    · rw [hq.2] at hpending
      cases hpending
  · exact hs.records

/-- The condition, checked for the steps of a run with one aggregation and one
rotation at a time. -/
def inTurn (s : Server Binary32) : Action Binary32 → Bool
  | .call _ _ =>
    match s.calls with
    | [.rotateAtRestKey v] => v == s.world.crypto.activeKeyVersion
    | _ => false
  | .rotateAtRestKey _ _ => s.federated.isNone
  | .proceed _ =>
    match s.federated with
    | some (.submitWeights _ _ _ (.add _ _)) => s.world.store.models.isEmpty
    | _ => true
  | _ => true

theorem inTurn_of_inTurn (s : Server Binary32) (a : Action Binary32) (h : inTurn s a = true) :
    InTurn standardDeployment s a := by
  cases a with
  | call i now =>
    intro v hi
    simp only [inTurn] at h
    split at h
    · rename_i keyVersion hcalls
      obtain rfl : keyVersion = v := by
        rw [hcalls] at hi
        have hmem := List.mem_of_getElem? hi
        simpa [eq_comm] using hmem
      exact .inl (beq_iff_eq.mp h)
    · cases h
  | rotateAtRestKey keyBytes peer =>
    intro _ c job p hc
    rw [submitting, Option.isNone_iff_eq_none.mp h] at hc
    cases hc
  | proceed o =>
    intro c job weights hc hadd _ _ m hm
    simp only [inTurn] at h
    split at h
    · rw [List.isEmpty_iff.mp h] at hm
      cases hm
    · rename_i hother
      have hfederated := federated_of_submitting hc
      rw [hadd] at hfederated
      exact absurd hfederated (hother _ _ _ _ _)
  | _ => trivial

theorem key_versions_agree_rotated : ∃ s : Server Binary32, Quiet s ∧
    s.world.crypto.activeKeyVersion = 2 ∧ s.world.store.models.map (·.keyVersion) = [1] ∧
    KeyVersionsAgree s := by
  have htest : (execTested (Process.step standardDeployment) inTurn (acceptedRun ++ proceeds 2 3 ++
      [.rotateAtRestKey zeroKey admin, .call 0 4]) (initial standardDeployment firstStart)).any
      (fun s => (s.federated.isNone && s.calls.isEmpty) &&
        (s.world.crypto.activeKeyVersion == 2 &&
          s.world.store.models.map (·.keyVersion) == [1])) = true := by
    decide +kernel
  rw [Option.any_eq_true] at htest
  obtain ⟨s, hs, hresult⟩ := htest
  obtain ⟨hquiet, hversions⟩ := Bool.and_eq_true_iff.mp hresult
  rw [Bool.and_eq_true, beq_iff_eq, beq_iff_eq] at hversions
  have hreaches := execTested_reaches inTurn inTurn_of_inTurn _ hs
  have hq := quiet_of_isQuiet hquiet
  exact ⟨s, hq, hversions.1, hversions.2,
    key_versions_agree standardDeployment firstStart s hreaches hq⟩

/-- Of two rotations the first writes its version last. -/
theorem rotations_overtake : ∃ s,
    Reaches (Process.step standardDeployment) Free (initial standardDeployment firstStart) s ∧
    Quiet s ∧ ¬ KeyVersionsAgree s := by
  have htest : (exec (Process.step standardDeployment) [.rotateAtRestKey zeroKey admin,
      .rotateAtRestKey zeroKey admin, .call 1 0, .call 0 0]
      (initial standardDeployment firstStart)).any (fun s =>
        (s.federated.isNone && s.calls.isEmpty) &&
        s.world.store.activeKeyVersion != s.world.crypto.activeKeyVersion) = true := by
    decide +kernel
  rw [Option.any_eq_true] at htest
  obtain ⟨s, hs, hresult⟩ := htest
  obtain ⟨hquiet, hversions⟩ := Bool.and_eq_true_iff.mp hresult
  refine ⟨s, exec_reaches _ hs, quiet_of_isQuiet hquiet, ?_⟩
  intro hagree
  exact (bne_iff_ne.mp hversions) hagree.active

end PqFl.KeyVersions
