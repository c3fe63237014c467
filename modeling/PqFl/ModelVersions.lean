import PqFl.StoreRuns

/-!
# The versions of a model

All scopes share one list of models. In each scope the versions are numbered
from one in the order of recording, whatever is rolled back in between, and
the active one is the version that was recorded or rolled back to last.
-/

set_option autoImplicit false

namespace PqFl.ModelVersions
open PqFl.Identifiers PqFl.Timestamps PqFl.StoreRecords PqFl.StateStore PqFl.ListUpdate
open PqFl.StoreRuns PqFl.Runs

/-- The models of a scope in order of recording. -/
def modelsOf (s : StateStore) (t m : String) : List PersistedModelRecord :=
  s.models.filter (isModelOf (normalizeTenant t) (normalizeModel m))

/-- The versions from one on. -/
def versionsUpTo (n : ℕ) : List ℤ := (List.range n).map (fun i : ℕ => (i : ℤ) + 1)

/-- The version of the scope which was made the active one last. -/
def lastActivated (log : List (String × String × ℤ)) (t m : String) : Option ℤ :=
  (findLast (fun entry => entry.1 == normalizeTenant t && entry.2.1 == normalizeModel m) log).map
    (·.2.2)

def deactivated (x : PersistedModelRecord) : PersistedModelRecord := { x with active := false }

def activated (x : PersistedModelRecord) : PersistedModelRecord := { x with active := true }

theorem isModelOf_iff {t m : String} {x : PersistedModelRecord} :
    isModelOf t m x = true ↔ x.tenantId = t ∧ x.modelId = m := by
  simp [isModelOf]

theorem filter_deactivate (t m t' m' : String) (l : List PersistedModelRecord) :
    (l.map (deactivate t m)).filter (isModelOf t' m') =
      if t' = t ∧ m' = m then (l.filter (isModelOf t' m')).map deactivated
      else l.filter (isModelOf t' m') := by
  induction l with
  | nil => simp
  | cons x l ih =>
    have hof : isModelOf t' m' (deactivate t m x) = isModelOf t' m' x := by
      simp [isModelOf, (deactivate_scope t m x).1, (deactivate_scope t m x).2.1]
    rw [List.map_cons, List.filter_cons, List.filter_cons, hof, ih]
    by_cases hx : isModelOf t' m' x = true
    · obtain ⟨rfl, rfl⟩ := isModelOf_iff.mp hx
      by_cases hsame : x.tenantId = t ∧ x.modelId = m
      · obtain ⟨rfl, rfl⟩ := hsame
        simp [hx, deactivate, deactivated]
      · have hnot : isModelOf t m x = false := by
          rw [Bool.eq_false_iff]
          exact fun h => hsame (isModelOf_iff.mp h)
        simp [hx, hsame, deactivate, hnot]
    · simp [hx]

theorem filter_updateFirst_inside {α : Type} {p q : α → Bool} {f : α → α}
    (hpq : ∀ x, p x = true → q x = true) (hf : ∀ x, q (f x) = q x) (l : List α) :
    (updateFirst p f l).filter q = updateFirst p f (l.filter q) := by
  induction l with
  | nil => rfl
  | cons x l ih =>
    by_cases hp : p x = true
    · have hq := hpq x hp
      rw [updateFirst, if_pos hp, List.filter_cons_of_pos (by rw [hf]; exact hq),
        List.filter_cons_of_pos hq, updateFirst, if_pos hp]
    · rw [updateFirst, if_neg hp]
      by_cases hq : q x = true
      · rw [List.filter_cons_of_pos hq, List.filter_cons_of_pos hq, updateFirst, if_neg hp, ih]
      · rw [List.filter_cons_of_neg hq, List.filter_cons_of_neg hq, ih]

theorem filter_updateFirst_outside {α : Type} {p q : α → Bool} {f : α → α}
    (hpq : ∀ x, p x = true → q x = false) (hf : ∀ x, q (f x) = q x) (l : List α) :
    (updateFirst p f l).filter q = l.filter q := by
  induction l with
  | nil => rfl
  | cons x l ih =>
    by_cases hp : p x = true
    · have hq := hpq x hp
      rw [updateFirst, if_pos hp, List.filter_cons_of_neg (by rw [hf, hq]; simp),
        List.filter_cons_of_neg (by rw [hq]; simp)]
    · rw [updateFirst, if_neg hp]
      by_cases hq : q x = true
      · rw [List.filter_cons_of_pos hq, List.filter_cons_of_pos hq, ih]
      · rw [List.filter_cons_of_neg hq, List.filter_cons_of_neg hq, ih]

theorem updateFirst_congr {α : Type} {p q : α → Bool} {f g : α → α} {l : List α}
    (hpq : ∀ x ∈ l, p x = q x) (hfg : ∀ x, f x = g x) : updateFirst p f l = updateFirst q g l := by
  induction l with
  | nil => rfl
  | cons x l ih =>
    rw [updateFirst, updateFirst, hpq x List.mem_cons_self, hfg x,
      ih (fun y hy => hpq y (List.mem_cons_of_mem _ hy))]

theorem nextVersion_eq (l : List PersistedModelRecord) (t m : String) : nextVersion l t m =
    ((l.filter (isModelOf t m)).map (·.version)).foldl (fun next v => max next (v + 1)) 1 := by
  rw [nextVersion, List.foldl_map, List.foldl_filter]

theorem foldl_versionsUpTo (n : ℕ) :
    (versionsUpTo n).foldl (fun next v => max next (v + 1)) 1 = (n : ℤ) + 1 := by
  induction n with
  | zero => rfl
  | succ n ih =>
    rw [versionsUpTo, List.range_succ, List.map_append, List.foldl_append]
    rw [versionsUpTo] at ih
    rw [ih]
    show max ((n : ℤ) + 1) ((n : ℤ) + 1 + 1) = ((n + 1 : ℕ) : ℤ) + 1
    omega

theorem nextVersion_numbered {s : StateStore} {t m : String}
    (h : (modelsOf s t m).map (·.version) = versionsUpTo (modelsOf s t m).length) :
    nextVersion s.models (normalizeTenant t) (normalizeModel m) = (modelsOf s t m).length + 1 := by
  rw [nextVersion_eq]
  show ((modelsOf s t m).map (·.version)).foldl _ 1 = _
  rw [h, foldl_versionsUpTo]

theorem record_modelsOf (s : StateStore) (t m : String) (round : ℤ) (path strategy : String)
    (keyVersion clientCount weightDimension : ℤ) (now : ℕ) (t' m' : String) :
    modelsOf (recordAggregatedModel s t m round path strategy keyVersion clientCount weightDimension
      now).store t' m' =
      if normalizeTenant t' = normalizeTenant t ∧ normalizeModel m' = normalizeModel m then
        (modelsOf s t' m').map deactivated ++ [⟨normalizeTenant t, normalizeModel m,
          nextVersion s.models (normalizeTenant t) (normalizeModel m), round, path, strategy,
          keyVersion, clientCount, weightDimension, true, currentTimestamp now⟩]
      else modelsOf s t' m' := by
  rw [modelsOf, record_models, List.filter_append, filter_deactivate]
  by_cases h : normalizeTenant t' = normalizeTenant t ∧ normalizeModel m' = normalizeModel m
  · rw [if_pos h, if_pos h, List.filter_cons_of_pos (by simp [isModelOf, h.1, h.2]), List.filter_nil]
    rfl
  · rw [if_neg h, if_neg h, List.filter_cons_of_neg, List.filter_nil, List.append_nil]
    · rfl
    · rw [isModelOf_iff]
      exact fun hof => h ⟨hof.1.symm, hof.2.symm⟩

theorem rollback_modelsOf (s : StateStore) (t m : String) (v : ℤ) (now : ℕ) (t' m' : String) :
    modelsOf (rollbackModel s t m v now).store t' m' =
      if (normalizeTenant t' = normalizeTenant t ∧ normalizeModel m' = normalizeModel m) ∧
          (rollbackModel s t m v now).value.isSome = true then
        updateFirst (fun x => x.version == v) activated ((modelsOf s t' m').map deactivated)
      else modelsOf s t' m' := by
  have hvalue : (rollbackModel s t m v now).value.isSome = (s.models.find? (isVersionOf
      (normalizeTenant t) (normalizeModel m) v)).isSome := by
    unfold rollbackModel
    dsimp only
    split
    · rename_i hfound
      rw [hfound]
    · rename_i target hfound
      rw [hfound]
      rfl
  rw [modelsOf, rollback_models, hvalue]
  change (if _ then updateFirst _ activated _ else s.models).filter _ = _
  by_cases hfound : (s.models.find? (isVersionOf (normalizeTenant t) (normalizeModel m) v)).isSome
  · rw [if_pos hfound]
    by_cases h : normalizeTenant t' = normalizeTenant t ∧ normalizeModel m' = normalizeModel m
    · rw [if_pos ⟨h, hfound⟩, filter_updateFirst_inside (f := activated) ?_ (fun _ => rfl),
        filter_deactivate, if_pos h]
      · apply updateFirst_congr ?_ (fun _ => rfl)
        intro x hx
        obtain ⟨y, hy, rfl⟩ := List.mem_map.mp hx
        have hof := (List.mem_filter.mp hy).2
        rw [h.1, h.2] at hof
        have hof' : isModelOf (normalizeTenant t) (normalizeModel m) (deactivated y) = true := hof
        simp [isVersionOf, hof']
      · intro x hx
        rw [h.1, h.2]
        exact (Bool.and_eq_true_iff.mp hx).1
    · rw [if_neg (fun hboth => h hboth.1), filter_updateFirst_outside (f := activated) ?_
        (fun _ => rfl), filter_deactivate, if_neg h]
      · rfl
      · intro x hx
        obtain ⟨ht, hm⟩ := isModelOf_iff.mp (Bool.and_eq_true_iff.mp hx).1
        rw [Bool.eq_false_iff]
        intro hof
        obtain ⟨ht', hm'⟩ := isModelOf_iff.mp hof
        exact h ⟨ht'.symm.trans ht, hm'.symm.trans hm⟩
  · rw [if_neg hfound, if_neg (fun hboth => hfound hboth.2)]
    rfl

/-- The versions of a scope are numbered, and the last activated one is active. -/
structure Numbered (s : StateStore) (log : List (String × String × ℤ)) (t m : String) : Prop where
  versions : (modelsOf s t m).map (·.version) = versionsUpTo (modelsOf s t m).length
  active : ((modelsOf s t m).filter (·.active)).map (·.version) = (lastActivated log t m).toList
  known : lastActivated log t m = none ↔ modelsOf s t m = []

structure Registered (p : StoreProcess) : Prop where
  scopes : ∀ t m, Numbered p.store p.activated t m
  count : p.store.completedRounds = p.store.models.length

theorem initial_registered (n : ℕ) : Registered (initial n) where
  scopes t m := ⟨rfl, rfl, by simp [lastActivated, findLast, initial, modelsOf, emptyStore]⟩
  count := rfl

theorem lastActivated_append (log : List (String × String × ℤ)) (t m t' m' : String) (v : ℤ) :
    lastActivated (log ++ [(normalizeTenant t, normalizeModel m, v)]) t' m' =
      if normalizeTenant t' = normalizeTenant t ∧ normalizeModel m' = normalizeModel m then some v
      else lastActivated log t' m' := by
  unfold lastActivated findLast
  rw [List.reverse_append, List.reverse_singleton, List.singleton_append, List.find?_cons]
  by_cases h : normalizeTenant t' = normalizeTenant t ∧ normalizeModel m' = normalizeModel m
  · simp [h.1, h.2]
  · have hnot : (normalizeTenant t == normalizeTenant t' && normalizeModel m == normalizeModel m') =
        false := by
      rw [Bool.eq_false_iff]
      simp only [ne_eq, Bool.and_eq_true, beq_iff_eq]
      exact fun hboth => h ⟨hboth.1.symm, hboth.2.symm⟩
    simp only [hnot, if_neg h]

theorem filter_active_deactivated (l : List PersistedModelRecord) :
    (l.map deactivated).filter (·.active) = [] := by
  rw [List.filter_eq_nil_iff]
  intro x hx
  obtain ⟨y, -, rfl⟩ := List.mem_map.mp hx
  simp [deactivated]

theorem Numbered.elsewhere {s s' : StateStore} {log : List (String × String × ℤ)}
    {t m t' m' : String} (h : Numbered s log t' m')
    (hmodels : modelsOf s' t' m' = modelsOf s t' m')
    (hscope : ¬ (normalizeTenant t' = normalizeTenant t ∧ normalizeModel m' = normalizeModel m))
    (v : ℤ) : Numbered s' (log ++ [(normalizeTenant t, normalizeModel m, v)]) t' m' := by
  constructor
  · rw [hmodels]
    exact h.versions
  · rw [hmodels, lastActivated_append, if_neg hscope]
    exact h.active
  · rw [hmodels, lastActivated_append, if_neg hscope]
    exact h.known

theorem record_numbered {s : StateStore} {log : List (String × String × ℤ)} {t' m' : String}
    (h : Numbered s log t' m') (t m : String) (round : ℤ) (path strategy : String)
    (keyVersion clientCount weightDimension : ℤ) (now : ℕ) :
    Numbered (recordAggregatedModel s t m round path strategy keyVersion clientCount weightDimension
      now).store (log ++ [(normalizeTenant t, normalizeModel m, (recordAggregatedModel s t m round path
      strategy keyVersion clientCount weightDimension now).value)]) t' m' := by
  have hmodels := record_modelsOf s t m round path strategy keyVersion clientCount weightDimension
    now t' m'
  by_cases hscope : normalizeTenant t' = normalizeTenant t ∧ normalizeModel m' = normalizeModel m
  · rw [if_pos hscope] at hmodels
    have hnext := nextVersion_numbered h.versions
    rw [hscope.1, hscope.2] at hnext
    constructor
    · rw [hmodels, List.map_append, List.map_map, List.length_append, List.length_map]
      show (modelsOf s t' m').map (·.version) ++ [_] = _
      rw [h.versions, hnext, versionsUpTo, versionsUpTo, List.length_singleton, List.range_succ,
        List.map_append]
      rfl
    · rw [hmodels, lastActivated_append, if_pos hscope, List.filter_append,
        filter_active_deactivated]
      rfl
    · rw [hmodels, lastActivated_append, if_pos hscope]
      simp
  · rw [if_neg hscope] at hmodels
    exact h.elsewhere hmodels hscope _

theorem activate_one {l : List PersistedModelRecord} {v : ℤ} (h : v ∈ l.map (·.version)) :
    ((updateFirst (fun x => x.version == v) activated (l.map deactivated)).filter (·.active)).map
      (·.version) = [v] := by
  induction l with
  | nil => cases h
  | cons x l ih =>
    rw [List.map_cons, updateFirst]
    by_cases hx : x.version = v
    · rw [if_pos (by simpa [deactivated] using hx), List.filter_cons_of_pos rfl,
        filter_active_deactivated]
      simpa [activated, deactivated] using hx
    · rw [if_neg (by simpa [deactivated] using hx), List.filter_cons_of_neg (by simp [deactivated])]
      apply ih
      rw [List.map_cons] at h
      exact (List.mem_cons.mp h).resolve_left (fun heq => hx heq.symm)

theorem updateFirst_versions (l : List PersistedModelRecord) (v : ℤ) :
    (updateFirst (fun x => x.version == v) activated (l.map deactivated)).map (·.version) =
      l.map (·.version) := by
  rw [map_eq_of_forall₂ (·.version) (R := Touched (fun x => x.version == v) activated) _
    (updateFirst_touched _ _ _)]
  · rw [List.map_map]
    rfl
  · rintro x y (rfl | ⟨-, rfl⟩)
    · rfl
    · rfl

theorem rollback_isSome {s : StateStore} {t m : String} {v : ℤ} {now : ℕ}
    (h : (rollbackModel s t m v now).value.isSome = true) :
    v ∈ (modelsOf s t m).map (·.version) := by
  unfold rollbackModel at h
  dsimp only at h
  split at h
  · cases h
  · rename_i target hfound
    have hwanted := List.find?_some hfound
    simp only [isVersionOf, Bool.and_eq_true, beq_iff_eq] at hwanted
    exact List.mem_map.mpr ⟨target, List.mem_filter.mpr
      ⟨List.mem_of_find?_eq_some hfound, hwanted.1⟩, hwanted.2⟩

theorem rollback_numbered {s : StateStore} {log : List (String × String × ℤ)} {t' m' : String}
    (h : Numbered s log t' m') (t m : String) (v : ℤ) (now : ℕ) :
    Numbered (rollbackModel s t m v now).store
      (log ++ activation s now (.rollbackModel t m v)) t' m' := by
  have hmodels := rollback_modelsOf s t m v now t' m'
  by_cases hdone : (rollbackModel s t m v now).value.isSome = true
  · have hlog : activation s now (.rollbackModel t m v) = [(normalizeTenant t, normalizeModel m, v)] :=
      if_pos hdone
    rw [hlog]
    by_cases hscope : normalizeTenant t' = normalizeTenant t ∧ normalizeModel m' = normalizeModel m
    · rw [if_pos ⟨hscope, hdone⟩] at hmodels
      have hmem := rollback_isSome hdone
      have hlist : modelsOf s t m = modelsOf s t' m' := by
        rw [modelsOf, modelsOf, hscope.1, hscope.2]
      rw [hlist] at hmem
      have hversions := updateFirst_versions (modelsOf s t' m') v
      constructor
      · have hlength := congrArg List.length hversions
        rw [List.length_map, List.length_map] at hlength
        rw [hmodels, hversions, hlength]
        exact h.versions
      · rw [hmodels, lastActivated_append, if_pos hscope, activate_one hmem]
        rfl
      · rw [hmodels, lastActivated_append, if_pos hscope]
        constructor
        · intro hnone
          cases hnone
        · intro hnil
          rw [← hversions, hnil] at hmem
          cases hmem
    · rw [if_neg (fun hboth => hscope hboth.1)] at hmodels
      exact h.elsewhere hmodels hscope _
  · have hlog : activation s now (.rollbackModel t m v) = [] := if_neg hdone
    rw [if_neg (fun hboth => hdone hboth.2)] at hmodels
    rw [hlog, List.append_nil]
    exact ⟨hmodels ▸ h.versions, hmodels ▸ h.active, hmodels ▸ h.known⟩

theorem numbered_same {s s' : StateStore} {log : List (String × String × ℤ)} {t m : String}
    (h : Numbered s log t m) (hmodels : s'.models = s.models) : Numbered s' log t m := by
  have hof : modelsOf s' t m = modelsOf s t m := by rw [modelsOf, hmodels, modelsOf]
  exact ⟨hof ▸ h.versions, hof ▸ h.active, hof ▸ h.known⟩

theorem perform_registered {s : StateStore} {log : List (String × String × ℤ)}
    (h : ∀ t m, Numbered s log t m) (hcount : s.completedRounds = s.models.length) (now : ℕ)
    (op : Operation) :
    (∀ t m, Numbered (perform s now op).store (log ++ activation s now op) t m) ∧
      (perform s now op).store.completedRounds = (perform s now op).store.models.length := by
  have hstep := perform_registryStep s now op
  generalize (perform s now op).store = s' at hstep ⊢
  cases hstep with
  | kept hmodels hsame hnone =>
    rw [hnone, List.append_nil, hsame, hmodels]
    exact ⟨fun t m => numbered_same (h t m) hmodels, hcount⟩
  | recorded =>
    refine ⟨fun t m => record_numbered (h t m) _ _ _ _ _ _ _ _ _, ?_⟩
    rw [record_models]
    simp [recordAggregatedModel, hcount]
  | @rolledBack t m v =>
    refine ⟨fun t' m' => rollback_numbered (h t' m') _ _ _ _, ?_⟩
    rw [rollback_models]
    have hrounds : (rollbackModel s t m v now).store.completedRounds = s.completedRounds := by
      unfold rollbackModel
      dsimp only
      split
      · rfl
      · simp
    rw [hrounds, hcount]
    split
    · rw [← (updateFirst_touched _ _ _).length_eq, List.length_map]
    · rfl

theorem step_registered {p p' : StoreProcess} {a : StoreAction} (hb : Backed p)
    (h : Registered p) (hs : step p a = some p') : Registered p' := by
  rcases step_cases hs with ⟨op, now, -, hstore, hlog⟩ | ⟨now, -, hstore, hlog⟩
  · obtain ⟨hscopes, hcount⟩ := perform_registered h.scopes h.count now op
    exact ⟨fun t m => hstore ▸ hlog ▸ hscopes t m, hstore ▸ hcount⟩
  · obtain ⟨hmodels, hcount, -⟩ := load_backed hb now
    refine ⟨fun t m => ?_, ?_⟩
    · rw [hlog]
      exact numbered_same (h.scopes t m) (hstore ▸ hmodels)
    · rw [hstore, hcount, hmodels]
      exact h.count

theorem run_registered {ok : StoreProcess → StoreAction → Prop} {n : ℕ} {p : StoreProcess}
    (h : Reaches step ok (initial n) p) : Registered p := by
  have hboth := h.strengthen (initial_backed n) (fun _ _ _ hi _ hs => step_backed hi hs)
  exact hboth.invariant (initial_registered n) (fun _ _ _ hi ha hs => step_registered ha.2 hi hs)

theorem getActiveModelRecord_eq (s : StateStore) (t m : String) :
    getActiveModelRecord s t m = ((modelsOf s t m).filter (·.active)).head? := by
  rw [modelsOf, List.filter_filter, List.head?_filter]
  unfold getActiveModelRecord isActiveModelOf
  congr 1
  funext x
  exact Bool.and_comm _ _

theorem Numbered.activeVersion {s : StateStore} {log : List (String × String × ℤ)} {t m : String}
    (h : Numbered s log t m) :
    (getActiveModelRecord s t m).map (·.version) = lastActivated log t m := by
  rw [getActiveModelRecord_eq, ← List.head?_map, h.active]
  cases lastActivated log t m with
  | none => rfl
  | some v => rfl

theorem getActiveModelVersion_eq (s : StateStore) (t m : String) :
    getActiveModelVersion s t m = ((getActiveModelRecord s t m).map (·.version)).getD 0 := by
  unfold getActiveModelVersion
  cases getActiveModelRecord s t m with
  | none => rfl
  | some x => rfl

theorem rollback_absent {s : StateStore} {t m : String} {v : ℤ}
    (h : v ∉ (modelsOf s t m).map (·.version)) (now : ℕ) :
    rollbackModel s t m v now = ⟨none, s, false⟩ := by
  have hnone : s.models.find? (isVersionOf (normalizeTenant t) (normalizeModel m) v) = none := by
    rw [List.find?_eq_none]
    intro x hx hwanted
    simp only [isVersionOf, Bool.and_eq_true, beq_iff_eq] at hwanted
    exact h (List.mem_map.mpr ⟨x, List.mem_filter.mpr ⟨hx, hwanted.1⟩, hwanted.2⟩)
  unfold rollbackModel
  simp only [hnone]

end PqFl.ModelVersions
