import Mathlib.Data.List.Basic

/-!
# Loops with checked indices

A counting loop whose body may fail, at an index out of range. With an invariant
under which no pass fails the loop has a result. Matrices are lists of rows and
are written one place at a time.
-/

set_option autoImplicit false

namespace PqFl.CheckedLoops

variable {α σ : Type}

/-- The indices from `start` up to `stop`, without the latter. -/
def forLoop (start stop : ℕ) (body : σ → ℕ → Option σ) (s : σ) : Option σ :=
  (List.range' start (stop - start)).foldlM body s

theorem forLoop_done {start stop : ℕ} (h : stop ≤ start) (body : σ → ℕ → Option σ) (s : σ) :
    forLoop start stop body s = some s := by
  have hcount : stop - start = 0 := by omega
  rw [forLoop, hcount]
  rfl

theorem forLoop_next {start stop : ℕ} (h : start < stop) (body : σ → ℕ → Option σ) (s : σ) :
    forLoop start stop body s = (body s start).bind (forLoop (start + 1) stop body) := by
  have hcount : stop - start = stop - (start + 1) + 1 := by omega
  rw [forLoop, hcount, List.range'_succ, List.foldlM_cons]
  rfl

theorem forLoop_invariant (I : ℕ → σ → Prop) {stop : ℕ} {f : σ → ℕ → Option σ} (count : ℕ)
    {start : ℕ} (hcount : start + count = stop) {s : σ} (hstart : I start s)
    (hstep : ∀ i s, start ≤ i → i < stop → I i s → ∃ s', f s i = some s' ∧ I (i + 1) s') :
    ∃ s', forLoop start stop f s = some s' ∧ I stop s' := by
  induction count generalizing start s with
  | zero =>
    obtain rfl : start = stop := by omega
    exact ⟨s, forLoop_done (Nat.le_refl start) f s, hstart⟩
  | succ count ih =>
    obtain ⟨s', hpass, hnext⟩ := hstep start s (Nat.le_refl start) (by omega) hstart
    rw [forLoop_next (by omega), hpass]
    exact ih (by omega) hnext (fun i s hi => hstep i s (by omega))

theorem forLoop_fold {f : σ → ℕ → Option σ} {g : σ → ℕ → σ} (count : ℕ) {start stop : ℕ}
    (hcount : start + count = stop)
    (h : ∀ i s, start ≤ i → i < stop → f s i = some (g s i)) (s : σ) :
    forLoop start stop f s = some ((List.range' start count).foldl g s) := by
  induction count generalizing start s with
  | zero => exact forLoop_done (by omega) f s
  | succ count ih =>
    rw [forLoop_next (by omega), h start s (Nat.le_refl start) (by omega), List.range'_succ,
      List.foldl_cons]
    exact ih (by omega) (fun i s hi => h i s (by omega)) _

def entryAt (m : List (List α)) (i j : ℕ) : Option α := (m[i]?).bind (fun row => row[j]?)

def setAt (m : List (List α)) (i j : ℕ) (x : α) : Option (List (List α)) :=
  (m[i]?).bind (fun row => if j < row.length then some (m.set i (row.set j x)) else none)

structure Square (n : ℕ) (m : List (List α)) : Prop where
  rows : m.length = n
  columns : ∀ row ∈ m, row.length = n

theorem square_replicate (n : ℕ) (x : α) : Square n (List.replicate n (List.replicate n x)) where
  rows := List.length_replicate
  columns := by
    intro row hrow
    rw [List.eq_of_mem_replicate hrow]
    exact List.length_replicate

theorem entryAt_replicate {n i j : ℕ} (hi : i < n) (hj : j < n) (x : α) :
    entryAt (List.replicate n (List.replicate n x)) i j = some x := by
  rw [entryAt, List.getElem?_replicate_of_lt hi, Option.bind_some,
    List.getElem?_replicate_of_lt hj]

theorem setAt_some {n : ℕ} {m : List (List α)} (h : Square n m) {i j : ℕ} (hi : i < n)
    (hj : j < n) (x : α) :
    ∃ m', setAt m i j x = some m' ∧ Square n m' ∧
      ∀ a b, entryAt m' a b = if a = i ∧ b = j then some x else entryAt m a b := by
  have hi' : i < m.length := h.rows ▸ hi
  have hrow : m[i].length = n := h.columns m[i] (List.getElem_mem hi')
  refine ⟨m.set i (m[i].set j x), ?_, ⟨?_, ?_⟩, ?_⟩
  · rw [setAt, List.getElem?_eq_getElem hi', Option.bind_some, if_pos (by omega)]
  · rw [List.length_set]
    exact h.rows
  · intro row hmem
    rcases List.mem_or_eq_of_mem_set hmem with hold | rfl
    · exact h.columns row hold
    · rw [List.length_set]
      exact hrow
  · intro a b
    unfold entryAt
    by_cases ha : a = i
    · rw [ha, List.getElem?_set_self hi', Option.bind_some, List.getElem?_eq_getElem hi',
        Option.bind_some]
      by_cases hb : b = j
      · rw [hb, List.getElem?_set_self (by omega), if_pos ⟨rfl, rfl⟩]
      · rw [List.getElem?_set_ne (fun heq => hb heq.symm), if_neg (fun hboth => hb hboth.2)]
    · rw [List.getElem?_set_ne (fun heq => ha heq.symm), if_neg (fun hboth => ha hboth.1)]

theorem row_of_entries {n i : ℕ} {m : List (List α)} (h : Square n m) (hi : i < n)
    {row : List α} (hlength : row.length = n) (hentries : ∀ j < n, entryAt m i j = row[j]?) :
    m[i]? = some row := by
  have hi' : i < m.length := h.rows ▸ hi
  rw [List.getElem?_eq_getElem hi']
  congr 1
  have hrow : m[i].length = n := h.columns m[i] (List.getElem_mem hi')
  apply List.ext_getElem?
  intro j
  by_cases hj : j < n
  · have hentry := hentries j hj
    rw [entryAt, List.getElem?_eq_getElem hi', Option.bind_some] at hentry
    exact hentry
  · rw [List.getElem?_eq_none (by omega), List.getElem?_eq_none (by omega)]

end PqFl.CheckedLoops
