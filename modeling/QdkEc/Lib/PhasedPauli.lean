import QdkEc.Lib.Bits

/-!
# The phased Pauli group

This module develops the group of Pauli operators `i^phase X^xBits Z^zBits` on
countably many qubits.  Every operator acts on finitely many of them.
-/

namespace QdkEc

open Bits

/-- A Pauli operator `i^phase X^xBits Z^zBits`. -/
@[ext]
structure PhasedPauli where
  phase : ZMod 4
  xBits : Bits
  zBits : Bits
deriving DecidableEq

namespace PhasedPauli

/-- The phase exponent of `-1` is a numeral. -/
instance atLeastTwo_two : Nat.AtLeastTwo 2 :=
  ⟨le_rfl⟩

/-- The phase exponent of `-i` is a numeral. -/
instance atLeastTwo_three : Nat.AtLeastTwo 3 :=
  ⟨Nat.le_succ 2⟩

/-- The phase exponent of the sign `-1` when `b` holds. -/
def twist (b : Bool) : ZMod 4 :=
  if b then 2 else 0

@[simp]
theorem twist_false : twist false = 0 :=
  rfl

@[simp]
theorem twist_true : twist true = 2 :=
  rfl

@[simp]
theorem twist_xor (a b : Bool) : twist (a ^^ b) = twist a + twist b := by
  cases a <;> cases b <;> decide

@[simp]
theorem twist_add_self (b : Bool) : twist b + twist b = 0 := by
  cases b <;> decide

@[simp]
theorem neg_twist (b : Bool) : -twist b = twist b := by
  cases b <;> decide

theorem twist_injective : Function.Injective twist := by
  decide

@[simp]
theorem twist_eq_zero {b : Bool} : twist b = 0 ↔ b = false := by
  cases b <;> decide

instance : One PhasedPauli := ⟨⟨0, 0, 0⟩⟩

instance : Mul PhasedPauli :=
  ⟨fun p q =>
    ⟨p.phase + q.phase + twist (Bits.dot p.zBits q.xBits), p.xBits + q.xBits, p.zBits + q.zBits⟩⟩

instance : Inv PhasedPauli :=
  ⟨fun p => ⟨-p.phase + twist (Bits.dot p.zBits p.xBits), p.xBits, p.zBits⟩⟩

@[simp]
theorem one_phase : (1 : PhasedPauli).phase = 0 :=
  rfl

@[simp]
theorem one_xBits : (1 : PhasedPauli).xBits = 0 :=
  rfl

@[simp]
theorem one_zBits : (1 : PhasedPauli).zBits = 0 :=
  rfl

@[simp]
theorem mul_phase (p q : PhasedPauli) :
    (p * q).phase = p.phase + q.phase + twist (Bits.dot p.zBits q.xBits) :=
  rfl

@[simp]
theorem mul_xBits (p q : PhasedPauli) : (p * q).xBits = p.xBits + q.xBits :=
  rfl

@[simp]
theorem mul_zBits (p q : PhasedPauli) : (p * q).zBits = p.zBits + q.zBits :=
  rfl

@[simp]
theorem inv_phase (p : PhasedPauli) : p⁻¹.phase = -p.phase + twist (Bits.dot p.zBits p.xBits) :=
  rfl

@[simp]
theorem inv_xBits (p : PhasedPauli) : p⁻¹.xBits = p.xBits :=
  rfl

@[simp]
theorem inv_zBits (p : PhasedPauli) : p⁻¹.zBits = p.zBits :=
  rfl

instance : Group PhasedPauli where
  mul_assoc p q r := by
    ext1
    · simp only [mul_phase, mul_xBits, mul_zBits, dot_add_left, dot_add_right, twist_xor]
      ring
    · exact add_assoc _ _ _
    · exact add_assoc _ _ _
  one_mul p := by
    ext1 <;> simp
  mul_one p := by
    ext1 <;> simp
  inv_mul_cancel p := by
    ext1
    · simp only [mul_phase, inv_phase, inv_zBits, one_phase]
      linear_combination twist_add_self (Bits.dot p.zBits p.xBits)
    · simp
    · simp

/-! ## Generators and scalars -/

/-- The scalar `i^k`. -/
def iPow (k : ZMod 4) : PhasedPauli :=
  ⟨k, 0, 0⟩

/-- The Pauli `X` on one qubit. -/
def X (i : ℕ) : PhasedPauli :=
  ⟨0, Bits.unit i, 0⟩

/-- The Pauli `Z` on one qubit. -/
def Z (i : ℕ) : PhasedPauli :=
  ⟨0, 0, Bits.unit i⟩

/-- The product of `X` over a set of qubits. -/
def xProduct (b : Bits) : PhasedPauli :=
  ⟨0, b, 0⟩

/-- The product of `Z` over a set of qubits. -/
def zProduct (b : Bits) : PhasedPauli :=
  ⟨0, 0, b⟩

variable (k : ZMod 4)

@[simp]
theorem iPow_phase : (iPow k).phase = k :=
  rfl

@[simp]
theorem iPow_xBits : (iPow k).xBits = 0 :=
  rfl

@[simp]
theorem iPow_zBits : (iPow k).zBits = 0 :=
  rfl

variable (i : ℕ)

@[simp]
theorem X_phase : (X i).phase = 0 :=
  rfl

@[simp]
theorem X_xBits : (X i).xBits = Bits.unit i :=
  rfl

@[simp]
theorem X_zBits : (X i).zBits = 0 :=
  rfl

@[simp]
theorem Z_phase : (Z i).phase = 0 :=
  rfl

@[simp]
theorem Z_xBits : (Z i).xBits = 0 :=
  rfl

@[simp]
theorem Z_zBits : (Z i).zBits = Bits.unit i :=
  rfl

@[simp]
theorem iPow_zero : iPow 0 = 1 :=
  rfl

theorem iPow_add (j k : ZMod 4) : iPow (j + k) = iPow j * iPow k := by
  ext1 <;> simp

/-- Scalars are central. -/
theorem iPow_mul_comm (p : PhasedPauli) : iPow k * p = p * iPow k := by
  ext1
  · simp [add_comm]
  · simp
  · simp

theorem mul_iPow_mul (p q : PhasedPauli) : p * (iPow k * q) = iPow k * (p * q) := by
  rw [← mul_assoc, ← iPow_mul_comm, mul_assoc]

theorem eq_iPow_mul_xProduct_mul_zProduct (p : PhasedPauli) :
    p = iPow p.phase * xProduct p.xBits * zProduct p.zBits := by
  ext1 <;> simp [xProduct, zProduct]

theorem xProduct_add (a b : Bits) : xProduct (a + b) = xProduct a * xProduct b := by
  ext1 <;> simp [xProduct]

theorem zProduct_add (a b : Bits) : zProduct (a + b) = zProduct a * zProduct b := by
  ext1 <;> simp [zProduct]

theorem xProduct_zero : xProduct 0 = 1 :=
  rfl

theorem zProduct_zero : zProduct 0 = 1 :=
  rfl

theorem zProduct_unit : zProduct (Bits.unit i) = Z i :=
  rfl

theorem generator_induction {motive : PhasedPauli → Prop} (scalar : ∀ k, motive (iPow k))
    (x : ∀ i, motive (X i)) (z : ∀ i, motive (Z i))
    (mul : ∀ p q, motive p → motive q → motive (p * q)) (p : PhasedPauli) : motive p := by
  have hx : ∀ b, motive (xProduct b) := by
    intro b
    induction b using unit_induction with
    | zero => exact scalar 0
    | unit_add i a _ ih =>
      rw [xProduct_add]
      exact mul _ _ (x i) ih
  have hz : ∀ b, motive (zProduct b) := by
    intro b
    induction b using unit_induction with
    | zero => exact scalar 0
    | unit_add i a _ ih =>
      rw [zProduct_add]
      exact mul _ _ (z i) ih
  rw [eq_iPow_mul_xProduct_mul_zProduct p]
  exact mul _ _ (mul _ _ (scalar _) (hx _)) (hz _)

/-- A Boolean function of operators that turns products into sums and ignores phases. -/
structure Additive (ℓ : PhasedPauli → Bool) : Prop where
  map_mul : ∀ p q, ℓ (p * q) = (ℓ p ^^ ℓ q)
  map_iPow : ∀ k, ℓ (iPow k) = false

variable {ℓ ℓ' : PhasedPauli → Bool}

theorem Additive.eq_of_generators (hℓ : Additive ℓ) (hℓ' : Additive ℓ')
    (hx : ∀ i, ℓ (X i) = ℓ' (X i)) (hz : ∀ i, ℓ (Z i) = ℓ' (Z i)) (p : PhasedPauli) :
    ℓ p = ℓ' p := by
  induction p using generator_induction with
  | scalar k => rw [hℓ.map_iPow, hℓ'.map_iPow]
  | x i => exact hx i
  | z i => exact hz i
  | mul p q hp hq => rw [hℓ.map_mul, hℓ'.map_mul, hp, hq]

theorem additive_index_xBits (j : ℕ) : Additive fun p => p.xBits.index j :=
  ⟨fun p q => by simp, fun k => by simp⟩

theorem additive_index_zBits (j : ℕ) : Additive fun p => p.zBits.index j :=
  ⟨fun p q => by simp, fun k => by simp⟩

theorem Additive.xor (hℓ : Additive ℓ) (hℓ' : Additive ℓ') : Additive fun p => ℓ p ^^ ℓ' p := by
  refine ⟨fun p q => ?_, fun k => ?_⟩
  · simp only [hℓ.map_mul, hℓ'.map_mul, Bool.xor_assoc, Bool.xor_left_comm]
  · simp only [hℓ.map_iPow, hℓ'.map_iPow, Bool.xor_self]

theorem Additive.comp {ℓ : PhasedPauli → Bool} {φ : PhasedPauli → PhasedPauli} (hℓ : Additive ℓ)
    (hmul : ∀ p q, φ (p * q) = φ p * φ q) (hphase : ∀ k, φ (iPow k) = iPow k) :
    Additive fun p => ℓ (φ p) := by
  refine ⟨fun p q => ?_, fun k => ?_⟩
  · rw [hmul, hℓ.map_mul]
  · rw [hphase, hℓ.map_iPow]

theorem Additive.ite {c : Prop} [Decidable c] (hℓ : Additive ℓ) (hℓ' : Additive ℓ') :
    Additive fun p => if c then ℓ p else ℓ' p := by
  by_cases hc : c
  · simpa [hc] using hℓ
  · simpa [hc] using hℓ'

theorem Additive.xorSum {n : ℕ} {ℓ : ℕ → PhasedPauli → Bool} (hℓ : ∀ i, Additive (ℓ i)) :
    Additive fun p => Bits.xorSum n fun i => ℓ i p := by
  refine ⟨fun p q => ?_, fun k => ?_⟩
  · simp only [(hℓ _).map_mul]
    exact xorSum_xor n _ _
  · rw [xorSum_eq_of_single (k := 0) fun i _ _ => (hℓ i).map_iPow k, (hℓ 0).map_iPow,
      Bool.and_false]

theorem Additive.and {ℓ : PhasedPauli → Bool} (c : Bool) (hℓ : Additive ℓ) :
    Additive fun p => c && ℓ p := by
  cases c with
  | false => exact ⟨fun p q => rfl, fun k => rfl⟩
  | true => exact hℓ

/-! ## Commutation -/

/-- The two operators anticommute. -/
def anti (p q : PhasedPauli) : Bool :=
  Bits.dot p.xBits q.zBits ^^ Bits.dot p.zBits q.xBits

theorem mul_eq_twist_mul (p q : PhasedPauli) : p * q = iPow (twist (anti p q)) * (q * p) := by
  ext1
  · simp only [mul_phase, iPow_phase, iPow_zBits, dot_zero_left, twist_false, anti, twist_xor,
      dot_comm q.zBits p.xBits]
    linear_combination -twist_add_self (Bits.dot p.xBits q.zBits)
  · simp [add_comm]
  · simp [add_comm]

variable {p q : PhasedPauli}

theorem mul_comm_of_not_anti (h : anti p q = false) : p * q = q * p := by
  rw [mul_eq_twist_mul, h, twist_false, iPow_zero, one_mul]

theorem mul_comm_of_anti (h : anti p q = true) : p * q = iPow 2 * (q * p) := by
  rw [mul_eq_twist_mul, h, twist_true]

theorem anti_comm (p q : PhasedPauli) : anti p q = anti q p := by
  unfold anti
  rw [dot_comm p.xBits, dot_comm p.zBits, Bool.xor_comm]

theorem anti_eq_of_mul_eq {b : Bool} (h : p * q = iPow (twist b) * (q * p)) : anti p q = b := by
  rw [mul_eq_twist_mul p q] at h
  exact twist_injective (congrArg phase (mul_right_cancel h))

theorem anti_eq_false_iff : anti p q = false ↔ p * q = q * p := by
  constructor
  · exact mul_comm_of_not_anti
  · intro h
    apply anti_eq_of_mul_eq
    rw [h, twist_false, iPow_zero, one_mul]

@[simp]
theorem anti_self (p : PhasedPauli) : anti p p = false :=
  anti_eq_false_iff.mpr rfl

@[simp]
theorem anti_mul_left (p q r : PhasedPauli) : anti (p * q) r = (anti p r ^^ anti q r) := by
  simp only [anti, mul_xBits, mul_zBits, dot_add_left, Bool.xor_assoc, Bool.xor_left_comm]

@[simp]
theorem anti_mul_right (p q r : PhasedPauli) : anti p (q * r) = (anti p q ^^ anti p r) := by
  rw [anti_comm, anti_mul_left, anti_comm q, anti_comm r]

@[simp]
theorem anti_iPow_left (p : PhasedPauli) : anti (iPow k) p = false := by
  simp [anti]

@[simp]
theorem anti_iPow_right (p : PhasedPauli) : anti p (iPow k) = false := by
  simp [anti]

@[simp]
theorem anti_one_left (p : PhasedPauli) : anti 1 p = false :=
  anti_iPow_left 0 p

@[simp]
theorem anti_one_right (p : PhasedPauli) : anti p 1 = false :=
  anti_iPow_right 0 p

@[simp]
theorem anti_inv_left (p q : PhasedPauli) : anti p⁻¹ q = anti p q :=
  rfl

@[simp]
theorem anti_X_right (p : PhasedPauli) (i : ℕ) : anti p (X i) = p.zBits.index i := by
  simp [anti]

@[simp]
theorem anti_Z_right (p : PhasedPauli) (i : ℕ) : anti p (Z i) = p.xBits.index i := by
  simp [anti]

@[simp]
theorem anti_X_left (p : PhasedPauli) (i : ℕ) : anti (X i) p = p.zBits.index i := by
  rw [anti_comm, anti_X_right]

@[simp]
theorem anti_Z_left (p : PhasedPauli) (i : ℕ) : anti (Z i) p = p.xBits.index i := by
  rw [anti_comm, anti_Z_right]

theorem eq_iPow_of_commutes {p : PhasedPauli} (h : ∀ q, anti p q = false) : p = iPow p.phase := by
  ext1
  · rfl
  · apply ext_index
    intro i
    simpa using h (Z i)
  · apply ext_index
    intro i
    simpa using h (X i)

/-! ## Order two -/

/-- The operator squares to the identity, that is, it is Hermitian. -/
def OrderTwo (p : PhasedPauli) : Prop :=
  p * p = 1

instance (p : PhasedPauli) : Decidable (OrderTwo p) :=
  inferInstanceAs (Decidable (p * p = 1))

theorem orderTwo_iff_phase {p : PhasedPauli} :
    OrderTwo p ↔ p.phase + p.phase + twist (Bits.dot p.zBits p.xBits) = 0 := by
  constructor
  · intro h
    exact congrArg phase h
  · intro h
    exact PhasedPauli.ext h (add_self _) (add_self _)

theorem orderTwo_one : OrderTwo 1 :=
  one_mul 1

theorem orderTwo_X : OrderTwo (X i) := by
  rw [orderTwo_iff_phase]
  simp

theorem orderTwo_Z : OrderTwo (Z i) := by
  rw [orderTwo_iff_phase]
  simp

theorem orderTwo_iPow_twist (b : Bool) : OrderTwo (iPow (twist b)) := by
  cases b <;> decide

theorem OrderTwo.sign_mul {p : PhasedPauli} (h : OrderTwo p) (b : Bool) :
    OrderTwo (iPow (twist b) * p) := by
  rw [orderTwo_iff_phase] at *
  simp only [mul_phase, iPow_phase, iPow_zBits, mul_xBits, mul_zBits, iPow_xBits, zero_add,
    dot_zero_left, twist_false]
  linear_combination h + twist_add_self b

theorem OrderTwo.mul_of_not_anti (hp : OrderTwo p) (hq : OrderTwo q) (h : anti p q = false) :
    OrderTwo (p * q) := by
  calc
    p * q * (p * q) = p * (q * p) * q := by group
    _ = p * (p * q) * q := by rw [mul_comm_of_not_anti h]
    _ = p * p * (q * q) := by group
    _ = 1 := by rw [hp, hq, one_mul]

theorem OrderTwo.quarter_mul_of_anti (hp : OrderTwo p) (hq : OrderTwo q) (h : anti p q = true) :
    OrderTwo (iPow 1 * (p * q)) := by
  rw [orderTwo_iff_phase] at *
  have hcross : twist (Bits.dot p.xBits q.zBits ^^ Bits.dot p.zBits q.xBits) = 2 := by
    unfold anti at h
    rw [h, twist_true]
  rw [twist_xor] at hcross
  simp only [mul_phase, iPow_phase, iPow_zBits, mul_xBits, mul_zBits, iPow_xBits, zero_add,
    dot_zero_left, twist_false, dot_add_left, dot_add_right, twist_xor,
    dot_comm q.zBits p.xBits]
  have hfour : (4 : ZMod 4) = 0 := by decide
  linear_combination hp + hq + hcross + twist_add_self (Bits.dot p.zBits q.xBits) + hfour

theorem OrderTwo.inv_eq {p : PhasedPauli} (h : OrderTwo p) : p⁻¹ = p :=
  inv_eq_of_mul_eq_one_right h

/-! ## Width -/

/-- The operator acts on the first `n` qubits only. -/
def Below (n : ℕ) (p : PhasedPauli) : Prop :=
  p.xBits.Below n ∧ p.zBits.Below n

instance (n : ℕ) (p : PhasedPauli) : Decidable (Below n p) :=
  inferInstanceAs (Decidable (_ ∧ _))

@[simp]
theorem below_one (n : ℕ) : Below n 1 :=
  ⟨below_zero n, below_zero n⟩

@[simp]
theorem below_iPow (n : ℕ) (k : ZMod 4) : Below n (iPow k) :=
  ⟨below_zero n, below_zero n⟩

theorem below_X {n i : ℕ} : Below n (X i) ↔ i < n := by
  simp [Below, below_unit]

theorem below_Z {n i : ℕ} : Below n (Z i) ↔ i < n := by
  simp [Below, below_unit]

theorem Below.mul {n : ℕ} (hp : Below n p) (hq : Below n q) : Below n (p * q) :=
  ⟨hp.1.add hq.1, hp.2.add hq.2⟩

theorem Below.inv {n : ℕ} {p : PhasedPauli} (hp : Below n p) : Below n p⁻¹ :=
  hp

theorem Below.mono {m n : ℕ} {p : PhasedPauli} (hp : Below m p) (h : m ≤ n) : Below n p :=
  ⟨hp.1.mono h, hp.2.mono h⟩

theorem below_iff_commutes {n : ℕ} {p : PhasedPauli} :
    Below n p ↔ ∀ i, n ≤ i → anti p (X i) = false ∧ anti p (Z i) = false := by
  simp only [Below, below_iff, anti_X_right, anti_Z_right]
  constructor
  · intro h i hi
    exact ⟨h.2 i hi, h.1 i hi⟩
  · intro h
    exact ⟨fun i hi => (h i hi).2, fun i hi => (h i hi).1⟩

theorem finite_below (n : ℕ) : {p : PhasedPauli | Below n p}.Finite := by
  apply Set.Finite.subset (s := Set.range (fun k : ZMod 4 × Set.Elem {b | Bits.Below n b} ×
    Set.Elem {b | Bits.Below n b} => PhasedPauli.mk k.1 k.2.1 k.2.2))
  · have hfin : Finite (Set.Elem {b | Bits.Below n b}) := Bits.finite_below n
    exact Set.finite_range _
  · intro p hp
    exact ⟨⟨p.phase, ⟨p.xBits, hp.1⟩, ⟨p.zBits, hp.2⟩⟩, rfl⟩

end PhasedPauli

end QdkEc
