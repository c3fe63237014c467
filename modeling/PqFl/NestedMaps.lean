import Mathlib.Data.List.AList

/-!
# Maps of maps

Two levels of finite maps, where a key of the first level goes when its map
becomes empty. What is put in for a new key of the second level and taken out
again leaves every lookup as it was.
-/

set_option autoImplicit false

namespace PqFl.NestedMaps

variable {α β γ : Type} [DecidableEq α] [DecidableEq β]

abbrev NestedMap (α β γ : Type) := AList (fun _ : α => AList (fun _ : β => γ))

/-- An absent map reads like an empty one. -/
def innerMap (m : NestedMap α β γ) (a : α) : AList (fun _ : β => γ) := (m.lookup a).getD ∅

def insertAt (m : NestedMap α β γ) (a : α) (b : β) (c : γ) : NestedMap α β γ :=
  m.insert a ((innerMap m a).insert b c)

def eraseAt (m : NestedMap α β γ) (a : α) (b : β) : NestedMap α β γ :=
  match m.lookup a with
  | none => m
  | some entries =>
    if (entries.erase b).entries = [] then m.erase a else m.insert a (entries.erase b)

/-- No key is kept for an empty map. -/
def Occupied (m : NestedMap α β γ) : Prop := ∀ a entries, m.lookup a = some entries → entries ≠ ∅

theorem erase_insert (entries : AList (fun _ : β => γ)) (b : β) (c : γ) :
    (entries.insert b c).erase b = entries.erase b := by
  apply AList.ext
  show List.kerase b (entries.insert b c).entries = List.kerase b entries.entries
  rw [AList.entries_insert]
  exact List.kerase_cons_eq rfl

theorem erase_absent {entries : AList (fun _ : β => γ)} {b : β} (h : b ∉ entries) :
    entries.erase b = entries :=
  AList.ext (List.kerase_of_notMem_keys h)

theorem innerMap_insertAt (m : NestedMap α β γ) (a a' : α) (b : β) (c : γ) :
    innerMap (insertAt m a b c) a' = if a' = a then (innerMap m a).insert b c else innerMap m a' := by
  unfold innerMap insertAt
  by_cases h : a' = a
  · subst h
    rw [AList.lookup_insert, if_pos rfl]
    rfl
  · rw [AList.lookup_insert_ne h, if_neg h]

theorem innerMap_eraseAt (m : NestedMap α β γ) (a a' : α) (b : β) :
    innerMap (eraseAt m a b) a' = if a' = a then (innerMap m a).erase b else innerMap m a' := by
  unfold innerMap eraseAt
  by_cases h : a' = a
  · subst h
    rw [if_pos rfl]
    cases hm : m.lookup a' with
    | none =>
      simp only [hm, Option.getD_none]
      rfl
    | some entries =>
      by_cases hempty : (entries.erase b).entries = []
      · simp only [hempty, if_true, AList.lookup_erase, Option.getD_none, Option.getD_some]
        exact AList.ext hempty.symm
      · simp only [hempty, if_false, AList.lookup_insert, Option.getD_some]
  · rw [if_neg h]
    cases m.lookup a with
    | none => rfl
    | some entries =>
      by_cases hempty : (entries.erase b).entries = []
      · simp only [hempty, if_true, AList.lookup_erase_ne h]
      · simp only [hempty, if_false, AList.lookup_insert_ne h]

theorem insert_ne_empty (entries : AList (fun _ : β => γ)) (b : β) (c : γ) :
    entries.insert b c ≠ ∅ := by
  intro h
  have hmem : b ∈ entries.insert b c := (AList.mem_insert _).mpr (.inl rfl)
  rw [h] at hmem
  exact AList.notMem_empty b hmem

omit [DecidableEq β] in
theorem occupied_empty : Occupied (∅ : NestedMap α β γ) := by
  intro a entries h
  rw [AList.lookup_empty] at h
  cases h

theorem Occupied.insertAt {m : NestedMap α β γ} (h : Occupied m) (a : α) (b : β) (c : γ) :
    Occupied (insertAt m a b c) := by
  intro a' entries hlookup
  unfold NestedMaps.insertAt at hlookup
  by_cases ha : a' = a
  · subst ha
    rw [AList.lookup_insert, Option.some.injEq] at hlookup
    rw [← hlookup]
    exact insert_ne_empty _ b c
  · rw [AList.lookup_insert_ne ha] at hlookup
    exact h a' entries hlookup

theorem Occupied.eraseAt {m : NestedMap α β γ} (h : Occupied m) (a : α) (b : β) :
    Occupied (eraseAt m a b) := by
  unfold NestedMaps.eraseAt
  cases hm : m.lookup a with
  | none => exact h
  | some old =>
    by_cases hempty : (old.erase b).entries = []
    · simp only [hempty, if_true]
      intro a' entries hlookup
      by_cases ha : a' = a
      · subst ha
        rw [AList.lookup_erase] at hlookup
        cases hlookup
      · rw [AList.lookup_erase_ne ha] at hlookup
        exact h a' entries hlookup
    · simp only [hempty, if_false]
      intro a' entries hlookup
      by_cases ha : a' = a
      · subst ha
        rw [AList.lookup_insert, Option.some.injEq] at hlookup
        intro hnone
        rw [hnone] at hlookup
        exact hempty (congrArg AList.entries hlookup)
      · rw [AList.lookup_insert_ne ha] at hlookup
        exact h a' entries hlookup

omit [DecidableEq β] in
theorem Occupied.lookup_eq {m m' : NestedMap α β γ} (h : Occupied m) (h' : Occupied m') (a : α)
    (hinner : innerMap m' a = innerMap m a) : m'.lookup a = m.lookup a := by
  unfold innerMap at hinner
  cases hm : m.lookup a with
  | none =>
    cases hm' : m'.lookup a with
    | none => rfl
    | some entries =>
      rw [hm, hm'] at hinner
      exact absurd hinner (h' a entries hm')
  | some entries =>
    cases hm' : m'.lookup a with
    | none =>
      rw [hm, hm'] at hinner
      exact absurd hinner.symm (h a entries hm)
    | some entries' =>
      rw [hm, hm'] at hinner
      exact congrArg some hinner

omit [DecidableEq β] in
theorem Occupied.mem_iff {m : NestedMap α β γ} (h : Occupied m) (a : α) :
    a ∈ m ↔ ∃ b, b ∈ innerMap m a := by
  unfold innerMap
  constructor
  · intro ha
    obtain ⟨entries, hentries⟩ := Option.isSome_iff_exists.mp (AList.lookup_isSome.mpr ha)
    rw [hentries, Option.getD_some]
    by_contra hnone
    push Not at hnone
    apply h a entries hentries
    apply AList.ext
    show entries.entries = []
    rw [List.eq_nil_iff_forall_not_mem]
    intro entry hentry
    exact hnone entry.1 (List.mem_keys_of_mem hentry)
  · rintro ⟨b, hb⟩
    cases hm : m.lookup a with
    | none =>
      rw [hm] at hb
      exact absurd hb (AList.notMem_empty b)
    | some entries =>
      rw [← AList.lookup_isSome, hm]
      rfl

theorem innerMap_eraseAt_insertAt {m : NestedMap α β γ} {a : α} {b : β} (h : b ∉ innerMap m a) (c : γ)
    (a' : α) : innerMap (eraseAt (insertAt m a b c) a b) a' = innerMap m a' := by
  rw [innerMap_eraseAt, innerMap_insertAt, innerMap_insertAt]
  by_cases ha : a' = a
  · rw [if_pos ha, if_pos rfl, erase_insert, erase_absent h, ha]
  · rw [if_neg ha, if_neg ha]

theorem Occupied.lookup_eraseAt_insertAt {m : NestedMap α β γ} (h : Occupied m) {a : α} {b : β}
    (hb : b ∉ innerMap m a) (c : γ) (a' : α) :
    (NestedMaps.eraseAt (NestedMaps.insertAt m a b c) a b).lookup a' = m.lookup a' :=
  h.lookup_eq ((h.insertAt a b c).eraseAt a b) a' (innerMap_eraseAt_insertAt hb c a')

end PqFl.NestedMaps
