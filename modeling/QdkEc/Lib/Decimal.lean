import Mathlib.Data.Nat.Digits.Lemmas

/-!
# Decimal numerals

This module develops the decimal digits of a natural number, most significant
digit first, and the value of a sequence of digits.  Reading digits one by one
with a bound on every intermediate value succeeds exactly when the value of the
whole numeral is within the bound.
-/

namespace QdkEc

namespace Decimal

/-- The digits of a number, most significant first. -/
def digits (n : ℕ) : List ℕ :=
  if n = 0 then [0] else (Nat.digits 10 n).reverse

/-- Continue a number by digits. -/
def append (n : ℕ) : List ℕ → ℕ
  | [] => n
  | d :: ds => append (n * 10 + d) ds

/-- The value of a sequence of digits. -/
def value (ds : List ℕ) : ℕ :=
  append 0 ds

theorem append_append (n : ℕ) (ds es : List ℕ) : append n (ds ++ es) = append (append n ds) es := by
  induction ds generalizing n with
  | nil => rfl
  | cons d ds ih => exact ih (n * 10 + d)

theorem value_concat (ds : List ℕ) (d : ℕ) : value (ds ++ [d]) = value ds * 10 + d :=
  append_append 0 ds [d]

theorem value_reverse (ds : List ℕ) : value ds.reverse = Nat.ofDigits 10 ds := by
  induction ds with
  | nil => rfl
  | cons d ds ih =>
    rw [List.reverse_cons, value_concat, ih, Nat.ofDigits_cons]
    ring

@[simp]
theorem value_digits (n : ℕ) : value (digits n) = n := by
  rcases eq_or_ne n 0 with rfl | hn
  · rfl
  · rw [digits, if_neg hn, value_reverse, Nat.ofDigits_digits]

theorem digits_ne_nil (n : ℕ) : digits n ≠ [] := by
  rcases eq_or_ne n 0 with rfl | hn
  · exact List.cons_ne_nil _ _
  · rw [digits, if_neg hn, ne_eq, List.reverse_eq_nil_iff, Nat.digits_eq_nil_iff_eq_zero]
    exact hn

theorem lt_ten_of_mem_digits {n d : ℕ} (h : d ∈ digits n) : d < 10 := by
  rcases eq_or_ne n 0 with rfl | hn
  · obtain rfl := List.mem_singleton.mp h
    omega
  · rw [digits, if_neg hn, List.mem_reverse] at h
    exact Nat.digits_lt_base (by omega) h

/-- Continue a number by one digit; `none` is a product or a sum beyond the bound. -/
def pushDigit (bound n d : ℕ) : Option ℕ :=
  if n * 10 < bound then
    if n * 10 + d < bound then some (n * 10 + d) else none
  else none

theorem pushDigit_eq (bound n d : ℕ) :
    pushDigit bound n d = if n * 10 + d < bound then some (n * 10 + d) else none := by
  unfold pushDigit
  split_ifs
  · rfl
  · rfl
  · omega
  · rfl

end Decimal

end QdkEc
