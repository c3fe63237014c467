import Mathlib.Data.String.Basic
import PqFl.Calendar
import PqFl.FixedWidth

/-!
# The order of timestamps

Timestamps are compared as strings. While the year has four digits the order
of the strings is the order of the instants; `system_clock` counts nanoseconds
in 63 bits and ends in the year 2262.
-/

set_option autoImplicit false

namespace PqFl.Timestamps
open PqFl.FixedWidth

/-- The first millisecond which the clock cannot read. -/
def clockEnd : ℕ := 2^63 / 10^6

theorem clockEnd_le : clockEnd ≤ yearsEnd := by decide

theorem padded_toList (width n : ℕ) : (padded width n).toList = numeral width n := by
  simp [padded, numeral, String.toList_append]

def stampLayout : List Place :=
  [⟨4, '-'⟩, ⟨2, '-'⟩, ⟨2, 'T'⟩, ⟨2, ':'⟩, ⟨2, ':'⟩, ⟨2, '.'⟩, ⟨3, 'Z'⟩]

def stampNumbers (now : ℕ) : List ℕ :=
  let date := gmDate (now / 86400000)
  let second := now / 1000
  [date.year, date.month, date.day, second / 3600 % 24, second / 60 % 60, second % 60, now % 1000]

theorem currentTimestamp_toList (now : ℕ) :
    (currentTimestamp now).toList = numerals stampLayout (stampNumbers now) := by
  simp [currentTimestamp, String.toList_append, padded_toList, stampLayout, stampNumbers, numerals]

theorem stampNumbers_fit {now : ℕ} (h : now < yearsEnd) : Fits stampLayout (stampNumbers now) := by
  have hyear := (year_of_instant now).mpr h
  obtain ⟨⟨-, hmonth⟩, -, hday⟩ := (gmDate_real (now / 86400000)).toValid
  unfold Fits stampLayout stampNumbers
  simp only [List.forall₂_cons, List.Forall₂.nil, and_true]
  omega

/-- The numbers of a later instant are later: the date decides, and on one day
the milliseconds of the day. -/
theorem stampNumbers_lt {m n : ℕ} (h : m < n) : stampNumbers m < stampNumbers n := by
  unfold stampNumbers
  simp only [List.cons_lt_cons_iff]
  rcases Nat.lt_or_eq_of_le (Nat.div_le_div_right (c := 86400000) (le_of_lt h)) with hdays | hday
  · cases gmDate_before hdays with
    | year hy => exact .inl hy
    | month hy hm => exact .inr ⟨hy, .inl hm⟩
    | day hy hm hd => exact .inr ⟨hy, .inr ⟨hm, .inl hd⟩⟩
  · rw [hday]
    simp only [lt_self_iff_false, false_or, true_and]
    omega

theorem currentTimestamp_strictMono : StrictMonoOn currentTimestamp (Set.Iio yearsEnd) := by
  intro m hm n hn h
  rw [String.lt_iff_toList_lt, currentTimestamp_toList, currentTimestamp_toList]
  exact numerals_lt (stampNumbers_fit hm) (stampNumbers_fit hn) (stampNumbers_lt h)

theorem currentTimestamp_length {now : ℕ} (h : now < clockEnd) :
    (currentTimestamp now).toList.length = 24 := by
  rw [currentTimestamp_toList, numerals_length (stampNumbers_fit (lt_of_lt_of_le h clockEnd_le))]
  rfl

theorem currentTimestamp_ne_empty (now : ℕ) : currentTimestamp now ≠ "" := by
  intro h
  have hlist := congrArg String.toList h
  rw [currentTimestamp_toList] at hlist
  simp [stampLayout, stampNumbers, numerals] at hlist

theorem currentTimestamp_mono {m n : ℕ} (h : m ≤ n) (hn : n < clockEnd) :
    currentTimestamp m ≤ currentTimestamp n := by
  have hend : n < yearsEnd := lt_of_lt_of_le hn clockEnd_le
  exact currentTimestamp_strictMono.monotoneOn (lt_of_le_of_lt h hend) hend h

end PqFl.Timestamps
