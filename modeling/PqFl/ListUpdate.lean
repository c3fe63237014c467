import Mathlib.Data.List.Forall2

/-!
# Searching and updating records kept in a list

The first and the last record that meets a test, and the update of that one
record in place. Updates keep the order and the number of records, so what
they preserve is stated position by position.
-/

set_option autoImplicit false

namespace PqFl.ListUpdate

variable {α β : Type*}

def updateFirst (p : α → Bool) (f : α → α) : List α → List α
  | [] => []
  | x::xs => if p x then f x :: xs else x :: updateFirst p f xs

def findLast (p : α → Bool) (l : List α) : Option α := l.reverse.find? p

def updateLast (p : α → Bool) (f : α → α) (l : List α) : List α :=
  (updateFirst p f l.reverse).reverse

/-- Position by position, a record is kept or a record that meets the test is
replaced by its update. -/
def Touched (p : α → Bool) (f : α → α) (x y : α) : Prop := y = x ∨ (p x = true ∧ y = f x)

theorem updateFirst_touched (p : α → Bool) (f : α → α) (l : List α) :
    List.Forall₂ (Touched p f) l (updateFirst p f l) := by
  induction l with
  | nil => exact .nil
  | cons x xs ih =>
    rw [updateFirst]
    split
    · rename_i hx
      exact .cons (.inr ⟨hx, rfl⟩) (List.forall₂_same.mpr fun _ _ => .inl rfl)
    · exact .cons (.inl rfl) ih

theorem updateFirst_forall₂ {R : α → α → Prop} {p : α → Bool} {f : α → α} {l : List α} {x : α}
    (hrefl : ∀ y, R y y) (h : l.find? p = some x) (hx : R x (f x)) :
    List.Forall₂ R l (updateFirst p f l) := by
  induction l with
  | nil => exact .nil
  | cons y ys ih =>
    rw [updateFirst]
    by_cases hy : p y = true
    · rw [List.find?_cons_of_pos hy] at h
      rw [if_pos hy, Option.some.inj h]
      exact .cons hx (List.forall₂_same.mpr fun z _ => hrefl z)
    · rw [List.find?_cons_of_neg hy] at h
      rw [if_neg hy]
      exact .cons (hrefl y) (ih h)

theorem updateLast_forall₂ {R : α → α → Prop} {p : α → Bool} {f : α → α} {l : List α} {x : α}
    (hrefl : ∀ y, R y y) (h : findLast p l = some x) (hx : R x (f x)) :
    List.Forall₂ R l (updateLast p f l) := by
  have hrev := updateFirst_forall₂ hrefl (l := l.reverse) h hx
  simpa [updateLast] using List.forall₂_reverse_iff.mpr hrev

theorem mem_updateFirst {p : α → Bool} {f : α → α} {l : List α} {x : α} (h : l.find? p = some x) :
    f x ∈ updateFirst p f l := by
  induction l with
  | nil => simp at h
  | cons y ys ih =>
    rw [updateFirst]
    by_cases hy : p y = true
    · rw [List.find?_cons_of_pos hy] at h
      rw [if_pos hy, Option.some.inj h]
      exact List.mem_cons_self
    · rw [List.find?_cons_of_neg hy] at h
      rw [if_neg hy]
      exact List.mem_cons_of_mem _ (ih h)

theorem mem_updateFirst_of_mem {p : α → Bool} (f : α → α) {l : List α} {x : α} (hx : x ∈ l) :
    x ∈ updateFirst p f l ∨ l.find? p = some x := by
  induction l with
  | nil => cases hx
  | cons y ys ih =>
    unfold updateFirst
    by_cases hy : p y = true
    · rw [if_pos hy, List.find?_cons_of_pos hy]
      rcases List.mem_cons.mp hx with rfl | hx
      · exact .inr rfl
      · exact .inl (List.mem_cons_of_mem _ hx)
    · rw [if_neg hy, List.find?_cons_of_neg hy]
      rcases List.mem_cons.mp hx with rfl | hx
      · exact .inl List.mem_cons_self
      · rcases ih hx with hmem | hfound
        · exact .inl (List.mem_cons_of_mem _ hmem)
        · exact .inr hfound

theorem mem_updateLast {p : α → Bool} {f : α → α} {l : List α} {x : α}
    (h : findLast p l = some x) : f x ∈ updateLast p f l :=
  List.mem_reverse.mpr (mem_updateFirst h)

theorem map_eq_of_forall₂ {R : α → α → Prop} (g : α → β) (hg : ∀ x y, R x y → g y = g x)
    {l l' : List α} (h : List.Forall₂ R l l') : l'.map g = l.map g := by
  induction h with
  | nil => rfl
  | cons hxy _ ih => simp [hg _ _ hxy, ih]

theorem map_updateFirst {g : α → β} {p : α → Bool} {f : α → α}
    (hf : ∀ x, p x = true → g (f x) = g x) (l : List α) :
    (updateFirst p f l).map g = l.map g := by
  refine map_eq_of_forall₂ g ?_ (updateFirst_touched p f l)
  rintro x y (rfl | ⟨hx, rfl⟩)
  · rfl
  · exact hf x hx

theorem forall₂_of_mem {R : α → α → Prop} {l l' : List α} (h : List.Forall₂ R l l') {y : α}
    (hy : y ∈ l') : ∃ x ∈ l, R x y := by
  induction h with
  | nil => simp at hy
  | cons hxy _ ih =>
    rcases List.mem_cons.mp hy with rfl | hy
    · exact ⟨_, List.mem_cons_self, hxy⟩
    · obtain ⟨x, hx, hr⟩ := ih hy
      exact ⟨x, List.mem_cons_of_mem _ hx, hr⟩

theorem forall₂_of_mem_left {R : α → α → Prop} {l l' : List α} (h : List.Forall₂ R l l') {x : α}
    (hx : x ∈ l) : ∃ y ∈ l', R x y := by
  induction h with
  | nil => simp at hx
  | cons hxy _ ih =>
    rcases List.mem_cons.mp hx with rfl | hx
    · exact ⟨_, List.mem_cons_self, hxy⟩
    · obtain ⟨y, hy, hr⟩ := ih hx
      exact ⟨y, List.mem_cons_of_mem _ hy, hr⟩

theorem forall_updateFirst {P : α → Prop} {p : α → Bool} {f : α → α} {l : List α}
    (h : ∀ x ∈ l, P x) (hf : ∀ x, P x → P (f x)) : ∀ x ∈ updateFirst p f l, P x := by
  intro y hy
  obtain ⟨x, hx, rfl | ⟨-, rfl⟩⟩ := forall₂_of_mem (updateFirst_touched p f l) hy
  · exact h y hx
  · exact hf x (h x hx)

theorem updateFirst_eq_map {p : α → Bool} {key : α → β} {k : β} (hp : ∀ x, p x = true ↔ key x = k)
    (f : α → α) {l : List α} (h : (l.map key).Nodup) :
    updateFirst p f l = l.map (fun x => if p x then f x else x) := by
  induction l with
  | nil => rfl
  | cons x l ih =>
    rw [List.map_cons, List.nodup_cons] at h
    rw [updateFirst, List.map_cons]
    by_cases hx : p x = true
    · have hrest : ∀ y ∈ l, (if p y then f y else y) = y := by
        intro y hy
        rw [if_neg]
        intro hpy
        apply h.1
        rw [(hp x).mp hx, ← (hp y).mp hpy]
        exact List.mem_map.mpr ⟨y, hy, rfl⟩
      rw [if_pos hx, if_pos hx, List.map_congr_left hrest, List.map_id']
    · rw [if_neg hx, if_neg hx, ih h.2]

theorem updateFirst_eq_mapIdx [DecidableEq β] (key : α → β) (k : β) (f : α → α) (l : List α) :
    updateFirst (fun x => key x == k) f l =
      l.mapIdx (fun i x => if key x = k ∧ key x ∉ (l.take i).map key then f x else x) := by
  induction l with
  | nil => rfl
  | cons x l ih =>
    rw [updateFirst, List.mapIdx_cons]
    by_cases hx : key x = k
    · have hlater : l.mapIdx (fun i y => if key y = k ∧
          key y ∉ ((x :: l).take (i + 1)).map key then f y else y) = l := by
        rw [List.mapIdx_eq_iff]
        intro i
        cases l[i]? with
        | none => rfl
        | some y =>
          rw [Option.map_some, if_neg]
          rintro ⟨hy, hfresh⟩
          apply hfresh
          rw [List.take_succ_cons, List.map_cons, hx, hy]
          exact List.mem_cons_self
      rw [if_pos (beq_iff_eq.mpr hx), hlater, if_pos ⟨hx, List.not_mem_nil⟩]
    · have hother : ¬ (key x == k) = true := fun h => hx (beq_iff_eq.mp h)
      rw [if_neg hother, ih, if_neg (fun h => hx h.1)]
      congr 2
      funext i y
      apply if_congr _ rfl rfl
      rw [List.take_succ_cons, List.map_cons, List.mem_cons, not_or]
      exact ⟨fun h => ⟨h.1, fun hsame => hx (hsame.symm.trans h.1), h.2⟩, fun h => ⟨h.1, h.2.2⟩⟩

theorem updateFirst_absent {p : α → Bool} {f : α → α} {l : List α}
    (h : l.find? p = none) : updateFirst p f l = l := by
  induction l with
  | nil => rfl
  | cons x l ih =>
    by_cases hx : p x = true
    · rw [List.find?_cons_of_pos hx] at h
      cases h
    · rw [List.find?_cons_of_neg hx] at h
      rw [updateFirst, if_neg hx, ih h]

theorem updateFirst_append {p : α → Bool} (f : α → α) {before after : List α} {x : α}
    (hbefore : ∀ y ∈ before, ¬ p y = true) (hx : p x = true) :
    updateFirst p f (before ++ x :: after) = before ++ f x :: after := by
  induction before with
  | nil => exact if_pos hx
  | cons y before ih =>
    have hy : ¬ p y = true := hbefore y List.mem_cons_self
    rw [List.cons_append, updateFirst, if_neg hy, List.cons_append,
      ih (fun z hz => hbefore z (List.mem_cons_of_mem _ hz))]

theorem find?_updateFirst {p : α → Bool} {f : α → α} (hf : ∀ x, p x = true → p (f x) = true)
    (l : List α) : (updateFirst p f l).find? p = (l.find? p).map f := by
  induction l with
  | nil => rfl
  | cons x l ih =>
    by_cases hx : p x = true
    · simp [updateFirst, hx, hf x hx]
    · simp [updateFirst, hx, ih]

theorem find?_updateFirst_other {p q : α → Bool} {f : α → α}
    (hf : ∀ x, p x = true → q x = false ∧ q (f x) = false) (l : List α) :
    (updateFirst p f l).find? q = l.find? q := by
  induction l with
  | nil => rfl
  | cons x l ih =>
    by_cases hx : p x = true
    · obtain ⟨hq, hqf⟩ := hf x hx
      simp [updateFirst, hx, hq, hqf]
    · simp [updateFirst, hx, List.find?_cons, ih]

theorem getElem?_updateFirst {p : α → Bool} (f : α → α) {l : List α} {x : α}
    (h : l.find? p = some x) :
    ∃ i : ℕ, l[i]? = some x ∧ (updateFirst p f l)[i]? = some (f x) := by
  induction l with
  | nil => cases h
  | cons y ys ih =>
    unfold updateFirst
    by_cases hy : p y = true
    · rw [List.find?_cons_of_pos hy] at h
      obtain rfl := Option.some.inj h
      rw [if_pos hy]
      exact ⟨0, rfl, rfl⟩
    · rw [List.find?_cons_of_neg hy] at h
      obtain ⟨i, hi, hi'⟩ := ih h
      rw [if_neg hy]
      exact ⟨i + 1, hi, hi'⟩

theorem nodup_append_one {l : List α} {x : α} :
    (l ++ [x]).Nodup ↔ l.Nodup ∧ ∀ y ∈ l, y ≠ x := by
  rw [List.nodup_append]
  constructor
  · rintro ⟨hl, -, hne⟩
    exact ⟨hl, fun y hy => hne y hy x (List.mem_singleton_self x)⟩
  · rintro ⟨hl, hne⟩
    refine ⟨hl, List.pairwise_singleton _ x, ?_⟩
    intro y hy z hz
    rw [List.mem_singleton.mp hz]
    exact hne y hy

theorem find_own [BEq β] [LawfulBEq β] {f : α → β} {l : List α} (h : (l.map f).Nodup) {x : α}
    (hx : x ∈ l) : l.find? (fun y => f y == f x) = some x := by
  induction l with
  | nil => cases hx
  | cons y ys ih =>
    rw [List.map_cons, List.nodup_cons] at h
    rcases List.mem_cons.mp hx with rfl | hmem
    · exact List.find?_cons_of_pos (beq_self_eq_true _)
    · have hne : f y ≠ f x := fun heq => h.1 (heq ▸ List.mem_map_of_mem hmem)
      rw [List.find?_cons_of_neg (by simpa using hne)]
      exact ih h.2 hmem

theorem forall_map {P : α → Prop} {f : α → α} {l : List α} (h : ∀ x ∈ l, P x)
    (hf : ∀ x, P x → P (f x)) : ∀ x ∈ l.map f, P x := by
  intro y hy
  obtain ⟨x, hx, rfl⟩ := List.mem_map.mp hy
  exact hf x (h x hx)

theorem forall_append_one {P : α → Prop} {l : List α} {y : α} (h : ∀ x ∈ l, P x) (hy : P y) :
    ∀ x ∈ l ++ [y], P x := by
  intro x hx
  rcases List.mem_append.mp hx with hx | hx
  · exact h x hx
  · rw [List.mem_singleton.mp hx]
    exact hy

theorem forall_mem_set {P : α → Prop} {l : List α} {i : ℕ} {y : α} (h : ∀ x ∈ l, P x) (hy : P y) :
    ∀ x ∈ l.set i y, P x := by
  intro x hx
  rcases List.mem_or_eq_of_mem_set hx with hold | rfl
  · exact h x hold
  · exact hy

theorem exists_mem_set {P : α → Prop} {l : List α} {i : ℕ} {x y : α} (hi : l[i]? = some x)
    (h : ∃ z ∈ l, P z) (hkeep : P x → P y) : ∃ z ∈ l.set i y, P z := by
  obtain ⟨z, hz, hP⟩ := h
  obtain ⟨j, hj⟩ := List.mem_iff_getElem?.mp hz
  by_cases hij : i = j
  · subst hij
    obtain rfl := Option.some.inj (hi.symm.trans hj)
    have hlt : i < l.length := (List.getElem?_eq_some_iff.mp hi).1
    exact ⟨y, List.mem_iff_getElem?.mpr ⟨i, by simp [hlt]⟩, hkeep hP⟩
  · exact ⟨z, List.mem_iff_getElem?.mpr ⟨j, by rw [List.getElem?_set_ne hij, hj]⟩, hP⟩

theorem forall₂_getElem? {R : α → α → Prop} {l l' : List α} (h : List.Forall₂ R l l') {i : ℕ}
    {x y : α} (hx : l[i]? = some x) (hy : l'[i]? = some y) : R x y := by
  induction h generalizing i with
  | nil => simp at hx
  | cons hab _ ih =>
    cases i with
    | zero =>
      simp only [List.getElem?_cons_zero, Option.some.injEq] at hx hy
      rw [← hx, ← hy]
      exact hab
    | succ i => exact ih (by simpa using hx) (by simpa using hy)

theorem find?_of_forall₂ {R : α → α → Prop} {p : α → Bool} (hR : ∀ x y, R x y → p y = p x)
    {l l' : List α} (h : List.Forall₂ R l l') {x : α} (hx : l.find? p = some x) :
    ∃ y, l'.find? p = some y ∧ R x y := by
  induction h with
  | nil => simp at hx
  | @cons a b as bs hab _ ih =>
    by_cases ha : p a = true
    · rw [List.find?_cons_of_pos ha] at hx
      have hb : p b = true := by rw [hR _ _ hab, ha]
      exact ⟨b, List.find?_cons_of_pos hb, Option.some.inj hx ▸ hab⟩
    · rw [List.find?_cons_of_neg ha] at hx
      have hb : ¬ p b = true := by rw [hR _ _ hab]; exact ha
      obtain ⟨y, hy, hr⟩ := ih hx
      exact ⟨y, by rw [List.find?_cons_of_neg hb, hy], hr⟩

theorem forall₂_trans {R S T : α → α → Prop} (h : ∀ x y z, R x y → S y z → T x z)
    {l₁ l₂ l₃ : List α} (hr : List.Forall₂ R l₁ l₂) (hs : List.Forall₂ S l₂ l₃) :
    List.Forall₂ T l₁ l₃ := by
  induction hr generalizing l₃ with
  | nil =>
    cases hs
    exact .nil
  | cons hxy _ ih =>
    cases hs with
    | cons hyz hrest => exact .cons (h _ _ _ hxy hyz) (ih hrest)

/-- The record that is found is the one that the update hits, also after a map
which keeps what the test reads. -/
theorem forall₂_updateFirst_hit {R : α → α → Prop} {p : α → Bool} {f g : α → α}
    (hp : ∀ y, p (g y) = p y) {l : List α} {x : α} (hx : l.find? p = some x)
    (h : List.Forall₂ R l (updateFirst p f (l.map g))) : R x (f (g x)) := by
  induction l with
  | nil => simp at hx
  | cons y ys ih =>
    by_cases hy : p y = true
    · rw [List.find?_cons_of_pos hy] at hx
      rw [List.map_cons, updateFirst, if_pos (by rw [hp]; exact hy)] at h
      obtain rfl := Option.some.inj hx
      cases h with
      | cons hr _ => exact hr
    · rw [List.find?_cons_of_neg hy] at hx
      rw [List.map_cons, updateFirst, if_neg (by rw [hp]; exact hy)] at h
      cases h with
      | cons _ hrest => exact ih hx hrest

theorem forall₂_map (f : α → α) {R : α → α → Prop} (h : ∀ x, R x (f x)) (l : List α) :
    List.Forall₂ R l (l.map f) := by
  induction l with
  | nil => exact .nil
  | cons x xs ih => exact .cons (h x) ih

theorem findLast_mem {p : α → Bool} {l : List α} {x : α} (h : findLast p l = some x) :
    x ∈ l ∧ p x = true :=
  ⟨List.mem_reverse.mp (List.mem_of_find?_eq_some h), List.find?_some h⟩

theorem findLast_none {p : α → Bool} {l : List α} :
    findLast p l = none ↔ ∀ x ∈ l, p x = false := by
  simp [findLast]

/-- At most one record meets the test. -/
def AtMostOne (p : α → Bool) (l : List α) : Prop :=
  l.Pairwise (fun x y => ¬ (p x = true ∧ p y = true))

theorem AtMostOne.mem_unique {p : α → Bool} {l : List α} (h : AtMostOne p l) {x y : α}
    (hx : x ∈ l) (hy : y ∈ l) (px : p x = true) (py : p y = true) : x = y := by
  induction l with
  | nil => simp at hx
  | cons z zs ih =>
    obtain ⟨hz, hzs⟩ := List.pairwise_cons.mp h
    rcases List.mem_cons.mp hx with hxz | hx'
    · subst hxz
      rcases List.mem_cons.mp hy with hyz | hy'
      · exact hyz.symm
      · exact absurd ⟨px, py⟩ (hz y hy')
    · rcases List.mem_cons.mp hy with hyz | hy'
      · subst hyz
        exact absurd ⟨py, px⟩ (hz x hx')
      · exact ih hzs hx' hy'

theorem AtMostOne.findLast_eq {p : α → Bool} {l : List α} (h : AtMostOne p l) {x : α}
    (hx : x ∈ l) (px : p x = true) : findLast p l = some x := by
  cases hf : findLast p l with
  | none => exact absurd px (by simp [findLast_none.mp hf x hx])
  | some y =>
    obtain ⟨hy, py⟩ := findLast_mem hf
    rw [h.mem_unique hx hy px py]

theorem AtMostOne.updateLast_eq_map {p : α → Bool} {l : List α} (h : AtMostOne p l) (f : α → α) :
    updateLast p f l = l.map (fun x => if p x then f x else x) := by
  have hreverse : AtMostOne p l.reverse :=
    List.pairwise_reverse.mpr (h.imp (fun hnot hboth => hnot ⟨hboth.2, hboth.1⟩))
  have hfirst : updateFirst p f l.reverse = l.reverse.map (fun x => if p x then f x else x) := by
    generalize l.reverse = l' at hreverse
    induction l' with
    | nil => rfl
    | cons x l' ih =>
      obtain ⟨hx, hrest⟩ := List.pairwise_cons.mp hreverse
      rw [updateFirst, List.map_cons]
      by_cases hpx : p x = true
      · have hkeep : ∀ y ∈ l', (if p y then f y else y) = y := by
          intro y hy
          rw [if_neg]
          intro hpy
          exact hx y hy ⟨hpx, hpy⟩
        rw [if_pos hpx, if_pos hpx, List.map_congr_left hkeep, List.map_id']
      · rw [if_neg hpx, if_neg hpx, ih hrest]
  rw [updateLast, hfirst, List.map_reverse, List.reverse_reverse]

theorem AtMostOne.of_forall₂ {p : α → Bool} {R : α → α → Prop}
    (hR : ∀ x y, R x y → p y = true → p x = true) {l l' : List α}
    (h : List.Forall₂ R l l') (hl : AtMostOne p l) : AtMostOne p l' := by
  induction h with
  | nil => exact .nil
  | @cons x y xs ys hxy hrest ih =>
    obtain ⟨hx, hxs⟩ := List.pairwise_cons.mp hl
    refine List.pairwise_cons.mpr ⟨?_, ih hxs⟩
    rintro z hz ⟨py, pz⟩
    obtain ⟨w, hw, hwz⟩ := forall₂_of_mem hrest hz
    exact hx w hw ⟨hR _ _ hxy py, hR _ _ hwz pz⟩

/-- Records are updated in place and new ones are added at the end. -/
def Grown (R : α → α → Prop) (l l' : List α) : Prop :=
  ∃ mid new, l' = mid ++ new ∧ List.Forall₂ R l mid

theorem Grown.of_forall₂ {R : α → α → Prop} {l l' : List α} (h : List.Forall₂ R l l') :
    Grown R l l' := ⟨l', [], (List.append_nil l').symm, h⟩

theorem Grown.refl {R : α → α → Prop} (hrefl : ∀ x, R x x) (l : List α) : Grown R l l :=
  .of_forall₂ (List.forall₂_same.mpr fun x _ => hrefl x)

theorem Grown.trans {R : α → α → Prop} (htrans : ∀ x y z, R x y → R y z → R x z)
    {l₁ l₂ l₃ : List α} (h : Grown R l₁ l₂) (h' : Grown R l₂ l₃) : Grown R l₁ l₃ := by
  obtain ⟨mid, new, rfl, hmid⟩ := h
  obtain ⟨mid', new', rfl, hmid'⟩ := h'
  have hlength : (mid'.take mid.length).length = mid.length := by
    have := hmid'.length_eq
    rw [List.length_append] at this
    rw [List.length_take]
    omega
  refine ⟨mid'.take mid.length, mid'.drop mid.length ++ new', ?_, ?_⟩
  · rw [← List.append_assoc, List.take_append_drop]
  · have hfirst : List.Forall₂ R mid (mid'.take mid.length) := by
      have htake := List.forall₂_take mid.length hmid'
      rw [List.take_left'] at htake
      · exact htake
      · rfl
    exact forall₂_trans htrans hmid hfirst

theorem Grown.getElem? {R : α → α → Prop} {l l' : List α} (h : Grown R l l') {i : ℕ} {x : α}
    (hx : l[i]? = some x) : ∃ y, l'[i]? = some y ∧ R x y := by
  obtain ⟨mid, new, rfl, hmid⟩ := h
  have hlt : i < mid.length := by
    rw [← hmid.length_eq]
    exact (List.getElem?_eq_some_iff.mp hx).1
  have hget : mid[i]? = some mid[i] := List.getElem?_eq_getElem hlt
  refine ⟨mid[i], ?_, forall₂_getElem? hmid hx hget⟩
  rw [List.getElem?_append_left hlt]
  exact hget

end PqFl.ListUpdate
