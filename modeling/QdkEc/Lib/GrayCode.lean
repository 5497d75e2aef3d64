import QdkEc.Lib.RowSpace

/-!
# Gray codes

This module counts in Gray code: consecutive codes differ in one bit, and the
codes of the numbers below a power of two are the numbers below it.  A walk
through the codes therefore visits every combination of some rows, adding one
row at a time.
-/

namespace QdkEc

open Nat

/-- The Gray code of a number. -/
def gray (n : ℕ) : ℕ :=
  n ^^^ (n >>> 1)

/-- The number of zero bits below the lowest set bit of a 64-bit word. -/
def trailingZeros (n : ℕ) : ℕ :=
  ((List.range 64).find? n.testBit).getD 64

theorem testBit_gray (n i : ℕ) : (gray n).testBit i = (n.testBit i ^^ n.testBit (i + 1)) := by
  rw [gray, Nat.testBit_xor, testBit_shiftRight, add_comm]

theorem gray_xor (a b : ℕ) : gray (a ^^^ b) = gray a ^^^ gray b := by
  refine Nat.eq_of_testBit_eq fun i => ?_
  rw [Nat.testBit_xor, testBit_gray, testBit_gray, testBit_gray, Nat.testBit_xor, Nat.testBit_xor]
  cases a.testBit i <;> cases b.testBit i <;> simp

theorem gray_zero : gray 0 = 0 :=
  rfl

theorem exists_xor_succ (n : ℕ) : ∃ b, n ^^^ (n + 1) = 2 ^ (b + 1) - 1 := by
  induction n using Nat.strong_induction_on with
  | _ n ih =>
    rcases Nat.even_or_odd' n with ⟨k, rfl | rfl⟩
    · refine ⟨0, Nat.eq_of_testBit_eq fun i => ?_⟩
      rw [Nat.testBit_xor, Nat.testBit_two_pow_sub_one]
      cases i with
      | zero => simp [testBit_zero]
      | succ i =>
        rw [testBit_succ, testBit_succ, show (2 * k + 1) / 2 = 2 * k / 2 by omega,
          Bool.xor_self]
        simp
    · obtain ⟨b, hb⟩ := ih k (by omega)
      refine ⟨b + 1, Nat.eq_of_testBit_eq fun i => ?_⟩
      rw [Nat.testBit_xor, Nat.testBit_two_pow_sub_one]
      cases i with
      | zero =>
        simp [testBit_zero]
        omega
      | succ i =>
        rw [testBit_succ, testBit_succ, show (2 * k + 1) / 2 = k by omega,
          show (2 * k + 1 + 1) / 2 = k + 1 by omega, ← Nat.testBit_xor, hb,
          Nat.testBit_two_pow_sub_one]
        exact decide_eq_decide.mpr (by omega)

theorem gray_two_pow_sub_one (b : ℕ) : gray (2 ^ (b + 1) - 1) = 2 ^ b := by
  refine Nat.eq_of_testBit_eq fun i => ?_
  rw [testBit_gray, Nat.testBit_two_pow_sub_one, Nat.testBit_two_pow_sub_one, testBit_two_pow]
  rcases lt_trichotomy i b with hi | rfl | hi
  · simp [show i < b + 1 by omega, hi, show b ≠ i by omega]
  · simp
  · simp [show ¬ i < b + 1 by omega, show ¬ i < b by omega, show b ≠ i by omega]

theorem exists_gray_xor_succ (n : ℕ) : ∃ b, gray n ^^^ gray (n + 1) = 2 ^ b := by
  obtain ⟨b, hb⟩ := exists_xor_succ n
  exact ⟨b, by rw [← gray_xor, hb, gray_two_pow_sub_one]⟩

theorem gray_lt {n k : ℕ} (hn : n < 2 ^ k) : gray n < 2 ^ k :=
  Nat.xor_lt_two_pow hn ((shiftRight_le n 1).trans_lt hn)

theorem gray_injective : Function.Injective gray := by
  intro a b hab
  have hzero : gray (a ^^^ b) = 0 := by rw [gray_xor, hab, Nat.xor_self]
  have hshift : a ^^^ b = (a ^^^ b) >>> 1 := Nat.xor_eq_zero_iff.mp hzero
  exact Nat.xor_eq_zero_iff.mp (by omega)

theorem exists_gray_eq {x k : ℕ} (hx : x < 2 ^ k) : ∃ n < 2 ^ k, gray n = x := by
  have hinj : Function.Injective fun n : Fin (2 ^ k) => (⟨gray n, gray_lt n.2⟩ : Fin (2 ^ k)) := by
    intro a b hab
    exact Fin.ext (gray_injective (Fin.mk.inj hab))
  obtain ⟨n, hn⟩ := Finite.injective_iff_surjective.mp hinj ⟨x, hx⟩
  exact ⟨n, n.2, congrArg Fin.val hn⟩

theorem trailingZeros_two_pow {b : ℕ} (hb : b < 64) : trailingZeros (2 ^ b) = b := by
  have hfind : (List.range 64).find? (2 ^ b).testBit = some b := by
    refine List.find?_range_eq_some.mpr ⟨testBit_two_pow_self, List.mem_range.mpr hb, ?_⟩
    intro i hi
    rw [testBit_two_pow, decide_eq_false (by omega)]
    rfl
  rw [trailingZeros, hfind, Option.getD_some]

theorem exists_changed_bit {n k : ℕ} (hk : k ≤ 64) (hn : n + 1 < 2 ^ k) :
    ∃ b < k, gray n ^^^ gray (n + 1) = 2 ^ b ∧ trailingZeros (gray n ^^^ gray (n + 1)) = b := by
  obtain ⟨b, hb⟩ := exists_gray_xor_succ n
  have hpow : 2 ^ b < 2 ^ k := hb ▸ Nat.xor_lt_two_pow (gray_lt (by omega)) (gray_lt hn)
  have hlt : b < k := (Nat.pow_lt_pow_iff_right (by omega)).mp hpow
  exact ⟨b, hlt, hb, by rw [hb, trailingZeros_two_pow (by omega)]⟩

end QdkEc
