import PqFl.Timestamps

/-!
# The calendar

The days since the epoch count through the proleptic Gregorian calendar. The
date of a day is compared here with the closed formula for the number of days
before a date: the formula goes up by one from day to day, so it determines the
date of every day, and the year 9999 ends where it should.
-/

set_option autoImplicit false

namespace PqFl.Timestamps

structure Date.Valid (d : Date) : Prop where
  month : 1 ≤ d.month ∧ d.month ≤ 12
  day : 1 ≤ d.day ∧ d.day ≤ 31

/-- A date of the calendar. -/
structure Date.Real (d : Date) : Prop extends d.Valid where
  inMonth : d.day ≤ daysInMonth d.year d.month

inductive Date.Before (d e : Date) : Prop
  | year (h : d.year < e.year)
  | month (hyear : d.year = e.year) (h : d.month < e.month)
  | day (hyear : d.year = e.year) (hmonth : d.month = e.month) (h : d.day < e.day)

theorem Date.Before.trans {d e f : Date} (h : d.Before e) (h' : e.Before f) : d.Before f := by
  cases h with
  | year hy =>
    cases h' with
    | year hy' => exact .year (by omega)
    | month hy' _ => exact .year (by omega)
    | day hy' _ _ => exact .year (by omega)
  | month hy hm =>
    cases h' with
    | year hy' => exact .year (by omega)
    | month hy' hm' => exact .month (by omega) (by omega)
    | day hy' hm' _ => exact .month (by omega) (by omega)
  | day hy hm hd =>
    cases h' with
    | year hy' => exact .year (by omega)
    | month hy' hm' => exact .month (by omega) (by omega)
    | day hy' hm' hd' => exact .day (by omega) (by omega) (by omega)

theorem Date.before_or (d e : Date) : d.Before e ∨ d = e ∨ e.Before d := by
  rcases Nat.lt_trichotomy d.year e.year with hy | hy | hy
  · exact .inl (.year hy)
  · rcases Nat.lt_trichotomy d.month e.month with hm | hm | hm
    · exact .inl (.month hy hm)
    · rcases Nat.lt_trichotomy d.day e.day with hd | hd | hd
      · exact .inl (.day hy hm hd)
      · right; left
        cases d
        cases e
        simp_all
      · exact .inr (.inr (.day hy.symm hm.symm hd))
    · exact .inr (.inr (.month hy.symm hm))
  · exact .inr (.inr (.year hy))

theorem daysInMonth_bounds (y m : ℕ) : 28 ≤ daysInMonth y m ∧ daysInMonth y m ≤ 31 := by
  unfold daysInMonth
  split
  · split <;> omega
  all_goals omega

theorem nextDay_real {d : Date} (h : d.Real) : (nextDay d).Real := by
  have hbounds := daysInMonth_bounds d.year d.month
  obtain ⟨⟨hmonth, hday⟩, hin⟩ := h
  unfold nextDay
  split
  · exact ⟨⟨hmonth, by dsimp only; omega⟩, by dsimp only; omega⟩
  · split
    · have hnext := daysInMonth_bounds d.year (d.month + 1)
      exact ⟨⟨by dsimp only; omega, by dsimp only; omega⟩, by dsimp only; omega⟩
    · have hnext := daysInMonth_bounds (d.year + 1) 1
      exact ⟨⟨by dsimp only; omega, by dsimp only; omega⟩, by dsimp only; omega⟩

theorem before_nextDay (d : Date) : d.Before (nextDay d) := by
  unfold nextDay
  split
  · exact .day rfl rfl (Nat.lt_succ_self _)
  · split
    · exact .month rfl (Nat.lt_succ_self _)
    · exact .year (Nat.lt_succ_self _)

theorem gmDate_real (n : ℕ) : (gmDate n).Real := by
  induction n with
  | zero => exact ⟨⟨by decide, by decide⟩, by decide⟩
  | succ n ih => exact nextDay_real ih

theorem gmDate_before {m n : ℕ} (h : m < n) : (gmDate m).Before (gmDate n) := by
  induction n with
  | zero => omega
  | succ n ih =>
    rcases Nat.lt_succ_iff_lt_or_eq.mp h with hlt | rfl
    · exact (ih hlt).trans (before_nextDay _)
    · exact before_nextDay _

/-- The days from the start of the year zero to the start of this one. -/
def daysBeforeYear (y : ℕ) : ℕ := 365 * y + (y + 3) / 4 + (y + 399) / 400 - (y + 99) / 100

def daysBeforeMonth (y : ℕ) : ℕ → ℕ
  | 0 => 0
  | 1 => 0
  | m+2 => daysBeforeMonth y (m+1) + daysInMonth y (m+1)

def dayNumber (d : Date) : ℕ := daysBeforeYear d.year + daysBeforeMonth d.year d.month + d.day

def epoch : Date := ⟨1970, 1, 1⟩

theorem daysBeforeYear_succ (y : ℕ) :
    daysBeforeYear (y + 1) = daysBeforeYear y + if isLeapYear y then 366 else 365 := by
  have hfour : (y + 1 + 3) / 4 = (y + 3) / 4 + if y % 4 = 0 then 1 else 0 := by split <;> omega
  have hcentury : (y + 1 + 99) / 100 = (y + 99) / 100 + if y % 100 = 0 then 1 else 0 := by
    split <;> omega
  have hcenturies : (y + 1 + 399) / 400 = (y + 399) / 400 + if y % 400 = 0 then 1 else 0 := by
    split <;> omega
  have hless : (y + 99) / 100 ≤ 365 * y := by omega
  unfold daysBeforeYear isLeapYear
  rw [hfour, hcentury, hcenturies]
  generalize (y + 3) / 4 = fours, (y + 99) / 100 = hundreds, (y + 399) / 400 = periods at hless ⊢
  by_cases hperiod : y % 400 = 0
  · have hhundred : y % 100 = 0 := by omega
    have hfourth : y % 4 = 0 := by omega
    simp [hperiod, hhundred, hfourth]
    omega
  by_cases hhundred : y % 100 = 0
  · have hfourth : y % 4 = 0 := by omega
    simp [hperiod, hhundred, hfourth]
    omega
  by_cases hfourth : y % 4 = 0
  · simp [hhundred, hperiod, hfourth]
    omega
  · simp [hhundred, hperiod, hfourth]
    omega

theorem daysBeforeYear_mono {y y' : ℕ} (h : y ≤ y') : daysBeforeYear y ≤ daysBeforeYear y' := by
  induction y' with
  | zero =>
    obtain rfl := Nat.le_zero.mp h
    exact Nat.le_refl _
  | succ n ih =>
    rcases Nat.le_succ_iff.mp h with hle | rfl
    · have hnext := daysBeforeYear_succ n
      have hbefore := ih hle
      omega
    · exact Nat.le_refl _

theorem daysBeforeMonth_year (y : ℕ) :
    daysBeforeMonth y 13 = if isLeapYear y then 366 else 365 := by
  simp only [daysBeforeMonth, daysInMonth]
  split <;> rfl

theorem daysBeforeMonth_succ {y m : ℕ} (h : 1 ≤ m) :
    daysBeforeMonth y (m + 1) = daysBeforeMonth y m + daysInMonth y m := by
  cases m with
  | zero => omega
  | succ m => rfl

theorem daysBeforeMonth_mono {y m m' : ℕ} (hm : 1 ≤ m) (h : m ≤ m') :
    daysBeforeMonth y m ≤ daysBeforeMonth y m' := by
  induction m' with
  | zero => omega
  | succ n ih =>
    rcases Nat.le_succ_iff.mp h with hle | rfl
    · have hbefore := ih hle
      rw [daysBeforeMonth_succ (Nat.le_trans hm hle)]
      omega
    · exact Nat.le_refl _

theorem dayNumber_nextDay {d : Date} (h : d.Real) : dayNumber (nextDay d) = dayNumber d + 1 := by
  obtain ⟨⟨⟨hfirst, hlast⟩, -⟩, hin⟩ := h
  unfold nextDay
  split
  · rfl
  · rename_i hfull
    have hlastDay : d.day = daysInMonth d.year d.month :=
      Nat.le_antisymm hin (Nat.le_of_not_lt hfull)
    split
    · show daysBeforeYear d.year + daysBeforeMonth d.year (d.month + 1) + 1 = _
      rw [daysBeforeMonth_succ hfirst, dayNumber, hlastDay, ← Nat.add_assoc]
    · show daysBeforeYear (d.year + 1) + 0 + 1 = _
      have hdecember : d.month + 1 = 13 := by omega
      rw [dayNumber, hlastDay, Nat.add_assoc (daysBeforeYear d.year), ← daysBeforeMonth_succ hfirst,
        hdecember, daysBeforeMonth_year, ← daysBeforeYear_succ]

theorem dayNumber_gmDate (n : ℕ) : dayNumber (gmDate n) = n + dayNumber epoch := by
  induction n with
  | zero =>
    rw [Nat.zero_add]
    rfl
  | succ n ih =>
    rw [gmDate, dayNumber_nextDay (gmDate_real n), ih, Nat.add_right_comm]

theorem dayNumber_le {d : Date} (h : d.Real) :
    dayNumber d ≤ daysBeforeYear d.year + daysBeforeMonth d.year (d.month + 1) := by
  rw [daysBeforeMonth_succ h.month.1, dayNumber]
  have hin := h.inMonth
  omega

theorem yearStart_lt {d : Date} (h : d.Real) : daysBeforeYear d.year < dayNumber d := by
  rw [dayNumber, Nat.add_assoc]
  exact Nat.lt_add_of_pos_right (Nat.add_pos_right _ h.day.1)

theorem dayNumber_lt {d e : Date} (hd : d.Real) (he : e.Real) (h : d.Before e) :
    dayNumber d < dayNumber e := by
  have hover := dayNumber_le hd
  cases h with
  | year hy =>
    have hmonth : d.month + 1 ≤ 13 := Nat.succ_le_succ hd.month.2
    calc dayNumber d ≤ daysBeforeYear d.year + daysBeforeMonth d.year (d.month + 1) := hover
      _ ≤ daysBeforeYear d.year + daysBeforeMonth d.year 13 :=
        Nat.add_le_add_left (daysBeforeMonth_mono (Nat.le_add_left 1 _) hmonth) _
      _ = daysBeforeYear (d.year + 1) := by rw [daysBeforeMonth_year, daysBeforeYear_succ]
      _ ≤ daysBeforeYear e.year := daysBeforeYear_mono hy
      _ < dayNumber e := yearStart_lt he
  | month hy hm =>
    calc dayNumber d ≤ daysBeforeYear d.year + daysBeforeMonth d.year (d.month + 1) := hover
      _ ≤ daysBeforeYear d.year + daysBeforeMonth d.year e.month :=
        Nat.add_le_add_left (daysBeforeMonth_mono (Nat.le_add_left 1 _) hm) _
      _ < daysBeforeYear d.year + daysBeforeMonth d.year e.month + e.day :=
        Nat.lt_add_of_pos_right he.day.1
      _ = dayNumber e := by rw [dayNumber, hy]
  | day hy hm hless =>
    rw [dayNumber, dayNumber, hy, hm]
    exact Nat.add_lt_add_left hless _

theorem gmDate_eq_iff {n : ℕ} {d : Date} (h : d.Real) :
    gmDate n = d ↔ dayNumber d = n + dayNumber epoch := by
  constructor
  · rintro rfl
    exact dayNumber_gmDate n
  · intro hnumber
    have hdate := dayNumber_gmDate n
    rcases Date.before_or (gmDate n) d with hbefore | heq | hafter
    · have hlt := dayNumber_lt (gmDate_real n) h hbefore
      omega
    · exact heq
    · have hlt := dayNumber_lt h (gmDate_real n) hafter
      omega

/-- The end of the year 9999, in milliseconds since the epoch. -/
def yearsEnd : ℕ := 86400000 * (dayNumber ⟨10000, 1, 1⟩ - dayNumber epoch)

theorem gmDate_year_iff (n : ℕ) :
    (gmDate n).year ≤ 9999 ↔ n < dayNumber ⟨10000, 1, 1⟩ - dayNumber epoch := by
  have hnumber := dayNumber_gmDate n
  constructor
  · intro h
    have hfirst : Date.Real ⟨10000, 1, 1⟩ := ⟨⟨by decide, by decide⟩, by decide⟩
    have hlt := dayNumber_lt (gmDate_real n) hfirst (.year (Nat.lt_succ_of_le h))
    rw [hnumber] at hlt
    exact Nat.lt_sub_of_add_lt hlt
  · intro h
    by_contra hlate
    have hyears := daysBeforeYear_mono (Nat.lt_of_not_le hlate)
    have hstart := yearStart_lt (gmDate_real n)
    rw [hnumber] at hstart
    have hend : dayNumber ⟨10000, 1, 1⟩ ≤ n + dayNumber epoch :=
      Nat.le_trans (Nat.succ_le_succ hyears) hstart
    exact Nat.not_lt_of_le hend (Nat.add_lt_of_lt_sub h)

theorem year_of_instant (now : ℕ) : (gmDate (now / 86400000)).year ≤ 9999 ↔ now < yearsEnd := by
  rw [gmDate_year_iff, Nat.div_lt_iff_lt_mul (by decide), Nat.mul_comm]
  rfl

example : yearsEnd = 253402300800000 := by decide

end PqFl.Timestamps
