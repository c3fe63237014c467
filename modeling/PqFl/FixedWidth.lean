import Mathlib.Algebra.Ring.Nat
import Mathlib.Data.Char
import Mathlib.Data.List.Lex
import Mathlib.Order.Lattice
import PqFl.SeparatedKeys

/-!
# The order of fixed-width texts

Texts of one length which begin with numerals of a fixed width are ordered by
these numerals first and then by what follows them, so a record of numerals is
ordered as the list of its numbers.
-/

set_option autoImplicit false

namespace PqFl.FixedWidth
open PqFl.SeparatedKeys

section
variable {α : Type*} [LinearOrder α]

theorem append_lt_append_of_lt {a b u v : List α} (hlen : a.length = b.length) (h : a < b) :
    a ++ u < b ++ v := by
  induction a generalizing b with
  | nil =>
    rw [List.length_eq_zero_iff.mp hlen.symm] at h
    exact absurd h (lt_irrefl _)
  | cons x a ih =>
    cases b with
    | nil => cases hlen
    | cons y b =>
      rw [List.cons_append, List.cons_append]
      rcases List.cons_lt_cons_iff.mp h with hxy | ⟨rfl, hab⟩
      · exact List.cons_lt_cons_iff.mpr (.inl hxy)
      · exact List.cons_lt_cons_iff.mpr (.inr ⟨rfl, ih (Nat.succ.inj hlen) hab⟩)

theorem append_lt_append_left {u v : List α} (h : u < v) (a : List α) : a ++ u < a ++ v := by
  induction a with
  | nil => exact h
  | cons x a ih => exact List.cons_lt_cons_iff.mpr (.inr ⟨rfl, ih⟩)

end

def IsDigits (l : List Char) : Prop := ∀ c ∈ l, c.isDigit = true

theorem digit_value {c : Char} (h : c.isDigit = true) : c.toNat - '0'.toNat ≤ 9 := by
  simp only [Char.isDigit, Bool.and_eq_true, decide_eq_true_eq, ge_iff_le,
    UInt32.le_iff_toNat_le] at h
  have hhigh : c.toNat ≤ 57 := h.2
  have : '0'.toNat = 48 := rfl
  omega

theorem digit_lt {c c' : Char} (h : c.isDigit = true) (hlt : c < c') :
    c.toNat - '0'.toNat < c'.toNat - '0'.toNat := by
  simp only [Char.isDigit, Bool.and_eq_true, decide_eq_true_eq, ge_iff_le,
    UInt32.le_iff_toNat_le] at h
  have hlow : 48 ≤ c.toNat := h.1
  have hlt' : c.toNat < c'.toNat := hlt
  have : '0'.toNat = 48 := rfl
  omega

theorem value_lt_of_lt {l l' : List Char} (hl : IsDigits l) (hlen : l.length = l'.length) {m n : ℕ}
    (h : m < n) : Nat.ofDigitChars 10 l m < Nat.ofDigitChars 10 l' n := by
  induction l generalizing l' m n with
  | nil =>
    rw [List.length_eq_zero_iff.mp hlen.symm]
    simpa using h
  | cons c l ih =>
    cases l' with
    | nil => cases hlen
    | cons c' l' =>
      rw [Nat.ofDigitChars_cons, Nat.ofDigitChars_cons]
      have hc := digit_value (hl c List.mem_cons_self)
      exact ih (fun d hd => hl d (List.mem_cons_of_mem _ hd)) (Nat.succ.inj hlen) (by omega)

theorem value_le_of_le {l l' : List Char} (hl : IsDigits l) (hlen : l.length = l'.length)
    (h : l ≤ l') (n : ℕ) : Nat.ofDigitChars 10 l n ≤ Nat.ofDigitChars 10 l' n := by
  induction l generalizing l' n with
  | nil =>
    rw [List.length_eq_zero_iff.mp hlen.symm]
  | cons c l ih =>
    cases l' with
    | nil => cases hlen
    | cons c' l' =>
      have hrest : IsDigits l := fun d hd => hl d (List.mem_cons_of_mem _ hd)
      rw [Nat.ofDigitChars_cons, Nat.ofDigitChars_cons]
      rcases lt_or_eq_of_le h with hlt | heq
      · rcases List.cons_lt_cons_iff.mp hlt with hcc | ⟨rfl, hll⟩
        · have hc := digit_lt (hl c List.mem_cons_self) hcc
          exact le_of_lt (value_lt_of_lt hrest (Nat.succ.inj hlen) (by omega))
        · exact ih hrest (Nat.succ.inj hlen) (le_of_lt hll) _
      · obtain ⟨rfl, rfl⟩ := List.cons.inj heq
        exact le_rfl

/-- A number with zeros in front of it. -/
def numeral (width n : ℕ) : List Char := List.replicate (width - n.repr.length) '0' ++ n.repr.toList

theorem numeral_length {width n : ℕ} (hw : 0 < width) (h : n < 10 ^ width) :
    (numeral width n).length = width := by
  have hlen := (Nat.length_repr_le_iff hw).mpr h
  simp only [numeral, List.length_append, List.length_replicate, String.length_toList]
  omega

theorem numeral_value (width n : ℕ) : Nat.ofDigitChars 10 (numeral width n) 0 = n := by
  rw [numeral, Nat.ofDigitChars_append, Nat.ofDigitChars_replicate_zero, Nat.mul_zero,
    Nat.toList_repr, Nat.ofDigitChars_ten_toDigits]

theorem numeral_isDigits (width n : ℕ) : IsDigits (numeral width n) := by
  intro c hc
  rcases List.mem_append.mp hc with hzero | hdigit
  · rw [List.eq_of_mem_replicate hzero]
    rfl
  · exact digit_of_mem_repr hdigit

theorem numeral_lt {width m n : ℕ} (hw : 0 < width) (hm : m < 10 ^ width) (hn : n < 10 ^ width)
    (h : m < n) : numeral width m < numeral width n := by
  by_contra hnot
  have hle := value_le_of_le (numeral_isDigits width n)
    ((numeral_length hw hn).trans (numeral_length hw hm).symm) (not_lt.mp hnot) 0
  rw [numeral_value, numeral_value] at hle
  omega

/-- The width of a numeral and the character behind it. -/
structure Place where
  width : ℕ
  mark : Char

def numerals : List Place → List ℕ → List Char
  | place::layout, n::numbers => numeral place.width n ++ place.mark :: numerals layout numbers
  | _, _ => []

/-- There is a number for every place, and it fits. -/
def Fits (layout : List Place) (numbers : List ℕ) : Prop :=
  List.Forall₂ (fun place n => 0 < place.width ∧ n < 10 ^ place.width) layout numbers

theorem numerals_lt {layout : List Place} {u v : List ℕ} (hu : Fits layout u) (hv : Fits layout v)
    (h : u < v) : numerals layout u < numerals layout v := by
  induction hu generalizing v with
  | nil =>
    cases hv
    exact absurd h (lt_irrefl _)
  | @cons place m layout u hm hu ih =>
    cases hv with
    | @cons _ n _ v hn hv =>
      rw [numerals, numerals]
      rcases List.cons_lt_cons_iff.mp h with hlt | ⟨rfl, hrest⟩
      · have hlength := (numeral_length hm.1 hm.2).trans (numeral_length hn.1 hn.2).symm
        exact append_lt_append_of_lt hlength (numeral_lt hm.1 hm.2 hn.2 hlt)
      · apply append_lt_append_left
        exact List.cons_lt_cons_iff.mpr (.inr ⟨rfl, ih hv hrest⟩)

theorem numerals_length {layout : List Place} {u : List ℕ} (hu : Fits layout u) :
    (numerals layout u).length = (layout.map (fun place => place.width + 1)).sum := by
  induction hu with
  | nil => rfl
  | @cons place n layout u hn _ ih =>
    rw [numerals, List.length_append, List.length_cons, ih, numeral_length hn.1 hn.2,
      List.map_cons, List.sum_cons]
    omega

end PqFl.FixedWidth
