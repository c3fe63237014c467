import Mathlib.Data.List.Count

/-!
# Rounds that check their arrivals together

A round keeps what arrives until it has as many as it needs, and checks them
together. When the check fails it puts away the last arrival alone. Whether it
ever closes then depends on what arrived first: what was kept unchecked stays.
-/

set_option autoImplicit false

namespace PqFl.ThresholdRounds

variable {V K : Type}

inductive Round (V : Type) where
  | collecting (pending : List V)
  | closed

/-- All are of one kind. -/
def Agree (fits : K → V → Bool) (vs : List V) : Prop := ∃ kind, ∀ v ∈ vs, fits kind v = true

open Classical in
noncomputable def arrive (fits : K → V → Bool) (threshold : ℕ) (round : Round V) (v : V) :
    Round V :=
  match round with
  | .closed => .closed
  | .collecting pending =>
    if pending.length + 1 < threshold then .collecting (v::pending)
    else if Agree fits (v::pending) then .closed
    else .collecting pending

theorem arrive_closed (fits : K → V → Bool) (threshold : ℕ) (vs : List V) :
    vs.foldl (arrive fits threshold) .closed = .closed := by
  induction vs with
  | nil => rfl
  | cons v vs ih => exact ih

/-- The arrivals that fill the round up to one below the threshold stay in it;
after that only those count that agree with them. -/
theorem run_closed_iff (fits : K → V → Bool) (threshold : ℕ) (pending vs : List V)
    (h : pending.length < threshold) :
    vs.foldl (arrive fits threshold) (.collecting pending) = .closed ↔
      ∃ kind, (∀ v ∈ pending ++ vs.take (threshold - 1 - pending.length), fits kind v = true) ∧
        threshold ≤ pending.length + vs.countP (fits kind) := by
  induction vs generalizing pending with
  | nil =>
    constructor
    · intro hclosed
      simp at hclosed
    · rintro ⟨kind, -, hcount⟩
      simp at hcount
      omega
  | cons v vs ih =>
    rw [List.foldl_cons]
    by_cases hmore : pending.length + 1 < threshold
    · have hstep : arrive fits threshold (.collecting pending) v = .collecting (v::pending) := by
        simp only [arrive, if_pos hmore]
      have hlength : (v::pending).length < threshold := by simpa using hmore
      have htake : threshold - 1 - pending.length = threshold - 1 - (v::pending).length + 1 := by
        rw [List.length_cons]
        omega
      rw [hstep, ih _ hlength, htake, List.take_succ_cons]
      apply exists_congr
      intro kind
      have hmem : (∀ x ∈ v::pending ++ vs.take (threshold - 1 - (v::pending).length),
            fits kind x = true) ↔
          ∀ x ∈ pending ++ v::vs.take (threshold - 1 - (v::pending).length),
            fits kind x = true := by
        simp only [List.cons_append, List.forall_mem_cons, List.forall_mem_append]
        tauto
      rw [hmem]
      apply and_congr_right
      intro hall
      have hv : fits kind v = true := hall v (by simp)
      rw [List.countP_cons_of_pos hv, List.length_cons]
      omega
    · have hfull : threshold - 1 - pending.length = 0 := by omega
      rw [hfull, List.take_zero, List.append_nil]
      by_cases hagree : Agree fits (v::pending)
      · have hstep : arrive fits threshold (.collecting pending) v = .closed := by
          simp only [arrive, if_neg hmore, if_pos hagree]
        rw [hstep, arrive_closed]
        obtain ⟨kind, hkind⟩ := hagree
        refine iff_of_true rfl ⟨kind, fun x hx => hkind x (List.mem_cons_of_mem _ hx), ?_⟩
        rw [List.countP_cons_of_pos (hkind v List.mem_cons_self)]
        omega
      · -- the last arrival is put away, and it agreed with no kind of the others
        have hstep : arrive fits threshold (.collecting pending) v = .collecting pending := by
          simp only [arrive, if_neg hmore, if_neg hagree]
        rw [hstep, ih _ h, hfull, List.take_zero, List.append_nil]
        apply exists_congr
        intro kind
        apply and_congr_right
        intro hall
        have hv : ¬ fits kind v = true := by
          intro hv
          exact hagree ⟨kind, List.forall_mem_cons.mpr ⟨hv, hall⟩⟩
        rw [List.countP_cons_of_neg hv]

theorem closed_iff (fits : K → V → Bool) (threshold : ℕ) (h : 1 ≤ threshold) (vs : List V) :
    vs.foldl (arrive fits threshold) (.collecting []) = .closed ↔
      ∃ kind, threshold ≤ vs.countP (fits kind) ∧
        ∀ v ∈ vs.take (threshold - 1), fits kind v = true := by
  rw [run_closed_iff fits threshold [] vs h]
  apply exists_congr
  intro kind
  rw [List.nil_append, List.length_nil, Nat.sub_zero, Nat.zero_add, and_comm]

end PqFl.ThresholdRounds
