import QdkEc.Lib.GeneratorFrame

/-!
# Conjugation maps

This module collects the scalar-fixing automorphisms by which Clifford gates
act on Pauli operators: conjugation by a Pauli, Pauli exponentials, controlled
Paulis, Hadamard gates and relabelings of the qubits.  A frame *follows* another
through such a map when its extension undoes the map first.
-/

namespace QdkEc

open PhasedPauli

namespace PhasedPauli

def conjugate (q : PhasedPauli) : PhasedPauli →* PhasedPauli :=
  (MulAut.conj q).toMonoidHom

theorem conjugate_apply (q r : PhasedPauli) : conjugate q r = iPow (twist (anti q r)) * r := by
  change q * r * q⁻¹ = _
  rw [mul_eq_twist_mul q r, mul_assoc, mul_assoc, mul_inv_cancel, mul_one]

@[simp]
theorem conjugate_iPow (q : PhasedPauli) (k : ZMod 4) : conjugate q (iPow k) = iPow k := by
  simp [conjugate_apply]

theorem conjugate_iPow_mul (k : ZMod 4) (q : PhasedPauli) :
    conjugate (iPow k * q) = conjugate q := by
  ext1 r
  rw [conjugate_apply, conjugate_apply, anti_mul_left, anti_iPow_left, Bool.false_xor]

theorem conjugate_conjugate (q r : PhasedPauli) : conjugate q (conjugate q r) = r := by
  rw [conjugate_apply q r, map_mul, conjugate_iPow, conjugate_apply, ← mul_assoc, ← iPow_add,
    twist_add_self, iPow_zero, one_mul]

theorem conjugate_mul_apply (p q r : PhasedPauli) :
    conjugate (p * q) r = conjugate p (conjugate q r) := by
  change p * q * r * (p * q)⁻¹ = p * (q * r * q⁻¹) * p⁻¹
  group

/-- Conjugation by `exp(iπQ/4)`: operators that anticommute with `Q` gain a factor `iQ`. -/
def pauliExp (q r : PhasedPauli) : PhasedPauli :=
  if anti q r then iPow 1 * (q * r) else r

theorem pauliExp_of_anti {q r : PhasedPauli} (h : anti q r = true) :
    pauliExp q r = iPow 1 * (q * r) := by
  simp [pauliExp, h]

theorem pauliExp_of_not_anti {q r : PhasedPauli} (h : anti q r = false) : pauliExp q r = r := by
  simp [pauliExp, h]

@[simp]
theorem pauliExp_iPow (q : PhasedPauli) (k : ZMod 4) : pauliExp q (iPow k) = iPow k :=
  pauliExp_of_not_anti (anti_iPow_right k q)

theorem pauliExp_mul {q : PhasedPauli} (hq : OrderTwo q) (r s : PhasedPauli) :
    pauliExp q (r * s) = pauliExp q r * pauliExp q s := by
  cases hr : anti q r with
  | false =>
    cases hs : anti q s with
    | false =>
      rw [pauliExp_of_not_anti hr, pauliExp_of_not_anti hs, pauliExp_of_not_anti]
      simp [hr, hs]
    | true =>
      rw [pauliExp_of_not_anti hr, pauliExp_of_anti hs, pauliExp_of_anti (by simp [hr, hs]),
        mul_iPow_mul, ← mul_assoc q, mul_comm_of_not_anti hr, mul_assoc]
  | true =>
    cases hs : anti q s with
    | false =>
      rw [pauliExp_of_anti hr, pauliExp_of_not_anti hs, pauliExp_of_anti (by simp [hr, hs]),
        mul_assoc, mul_assoc]
    | true =>
      have hrq : r * q = iPow 2 * (q * r) :=
        mul_comm_of_anti (by rw [anti_comm, hr])
      rw [pauliExp_of_anti hr, pauliExp_of_anti hs, pauliExp_of_not_anti (by simp [hr, hs])]
      symm
      calc
        iPow 1 * (q * r) * (iPow 1 * (q * s)) = iPow 1 * iPow 1 * (q * (r * q) * s) := by
          rw [mul_iPow_mul]
          group
        _ = iPow 1 * iPow 1 * iPow 2 * (q * q * r * s) := by
          rw [hrq, mul_iPow_mul]
          group
        _ = r * s := by
          rw [show q * q = 1 from hq, ← iPow_add, ← iPow_add]
          simp only [one_mul]
          exact one_mul (r * s)

theorem pauliExp_neg_pauliExp {q : PhasedPauli} (hq : OrderTwo q) (r : PhasedPauli) :
    pauliExp (iPow 2 * q) (pauliExp q r) = r := by
  cases h : anti q r with
  | false =>
    rw [pauliExp_of_not_anti h, pauliExp_of_not_anti]
    simp [h]
  | true =>
    rw [pauliExp_of_anti h, pauliExp_of_anti (by simp [h]), mul_iPow_mul]
    calc
      iPow 1 * (iPow 1 * (iPow 2 * q * (q * r))) =
          iPow 1 * iPow 1 * iPow 2 * (q * q * r) := by
        group
      _ = r := by
        rw [show q * q = 1 from hq, ← iPow_add, ← iPow_add, one_mul]
        exact one_mul r

/-- A Pauli exponential as a homomorphism. -/
def pauliExpHom (q : PhasedPauli) (hq : OrderTwo q) : PhasedPauli →* PhasedPauli where
  toFun := pauliExp q
  map_one' := pauliExp_iPow q 0
  map_mul' := pauliExp_mul hq

/-- Conjugation by the controlled Pauli of two commuting Paulis of order two. -/
def controlledPauli (p q r : PhasedPauli) : PhasedPauli :=
  match anti p r, anti q r with
  | false, false => r
  | true, false => r * q
  | false, true => r * p
  | true, true => iPow 2 * (r * p * q)

@[simp]
theorem controlledPauli_iPow (p q : PhasedPauli) (k : ZMod 4) :
    controlledPauli p q (iPow k) = iPow k := by
  simp [controlledPauli]

theorem iPow_two_mul_iPow_two_mul (p : PhasedPauli) : iPow 2 * (iPow 2 * p) = p := by
  rw [← mul_assoc, ← iPow_add]
  exact one_mul p

theorem OrderTwo.neg {p : PhasedPauli} (h : OrderTwo p) : OrderTwo (iPow 2 * p) :=
  h.sign_mul true

theorem controlledPauli_eq_around (p q r : PhasedPauli) : controlledPauli p q r =
      (if anti q r then p else 1) * (r * if anti p r then q else 1) := by
  cases hp : anti p r with
  | false =>
    have hcomm : p * r = r * p := mul_comm_of_not_anti hp
    cases hq : anti q r <;> simp [controlledPauli, hp, hq, hcomm]
  | true =>
    have hcomm : r * p = iPow 2 * (p * r) := mul_comm_of_anti (by rw [anti_comm, hp])
    cases hq : anti q r with
    | false => simp [controlledPauli, hp, hq]
    | true =>
      simp only [controlledPauli, hp, hq, if_true]
      rw [hcomm, mul_assoc (iPow 2), iPow_two_mul_iPow_two_mul, mul_assoc]

section ControlledPauli

variable {p q : PhasedPauli} (hp : OrderTwo p) (hq : OrderTwo q) (hpq : anti p q = false)

include hp hq hpq

theorem controlledPauli_eq_pauliExp (r : PhasedPauli) : controlledPauli p q r =
      pauliExp (p * q) (pauliExp (iPow 2 * p) (pauliExp (iPow 2 * q) r)) := by
  have hqp : anti q p = false := by rw [anti_comm, hpq]
  have hcomm : p * q = q * p := mul_comm_of_not_anti hpq
  have hpp : p * p = 1 := hp
  have hqq : q * q = 1 := hq
  have hthree : ∀ s : PhasedPauli, iPow 1 * (iPow 1 * (iPow 2 * s)) = s := by
    intro s
    rw [← mul_assoc, ← mul_assoc, ← iPow_add, ← iPow_add]
    exact one_mul s
  cases h1 : anti p r with
  | false =>
    have hpr : r * p = p * r := mul_comm_of_not_anti (by rw [anti_comm, h1])
    cases h2 : anti q r with
    | false =>
      rw [pauliExp_of_not_anti (q := iPow 2 * q) (by simp [h2]),
        pauliExp_of_not_anti (q := iPow 2 * p) (by simp [h1]),
        pauliExp_of_not_anti (by simp [h1, h2])]
      simp [controlledPauli, h1, h2]
    | true =>
      rw [pauliExp_of_anti (q := iPow 2 * q) (by simp [h2]),
        pauliExp_of_not_anti (q := iPow 2 * p) (by simp [h1, hpq]),
        pauliExp_of_anti (by simp [h1, h2, hpq])]
      simp only [controlledPauli, h1, h2]
      calc
        r * p = p * q * (q * r) := by rw [hpr, mul_assoc p q, ← mul_assoc q q, hqq, one_mul]
        _ = iPow 1 * (iPow 1 * (iPow 2 * (p * q * (q * r)))) := (hthree _).symm
        _ = iPow 1 * (p * q * (iPow 1 * (iPow 2 * q * r))) := by
          rw [mul_assoc (iPow 2) q r, mul_iPow_mul 1 (p * q), mul_iPow_mul 2 (p * q)]
  | true =>
    have hpr : r * p = iPow 2 * (p * r) := mul_comm_of_anti (by rw [anti_comm, h1])
    cases h2 : anti q r with
    | false =>
      have hqr : r * q = q * r := mul_comm_of_not_anti (by rw [anti_comm, h2])
      rw [pauliExp_of_not_anti (q := iPow 2 * q) (by simp [h2]),
        pauliExp_of_anti (q := iPow 2 * p) (by simp [h1]),
        pauliExp_of_anti (by simp [h1, h2, hqp])]
      simp only [controlledPauli, h1, h2]
      calc
        r * q = p * q * (p * r) := by rw [hcomm, hqr, mul_assoc q p, ← mul_assoc p p, hpp, one_mul]
        _ = iPow 1 * (iPow 1 * (iPow 2 * (p * q * (p * r)))) := (hthree _).symm
        _ = iPow 1 * (p * q * (iPow 1 * (iPow 2 * p * r))) := by
          rw [mul_assoc (iPow 2) p r, mul_iPow_mul 1 (p * q), mul_iPow_mul 2 (p * q)]
    | true =>
      have hqr : r * q = iPow 2 * (q * r) := mul_comm_of_anti (by rw [anti_comm, h2])
      rw [pauliExp_of_anti (q := iPow 2 * q) (by simp [h2]),
        pauliExp_of_anti (q := iPow 2 * p) (by simp [h1, hpq]),
        pauliExp_of_not_anti (by simp [h1, h2, hpq, hqp])]
      simp only [controlledPauli, h1, h2]
      calc
        iPow 2 * (r * p * q) = iPow 2 * (p * (q * r)) := by
          rw [hpr, mul_assoc (iPow 2), mul_assoc p r, hqr, mul_iPow_mul 2 p,
            iPow_two_mul_iPow_two_mul]
        _ = iPow 1 * (iPow 1 * (iPow 2 * (iPow 2 * (p * (q * r))))) := (hthree _).symm
        _ = iPow 1 * (iPow 2 * p * (iPow 1 * (iPow 2 * q * r))) := by
          rw [mul_assoc (iPow 2) q r, mul_iPow_mul 1 (iPow 2 * p), mul_iPow_mul 2 (iPow 2 * p),
            mul_assoc (iPow 2) p]

theorem controlledPauli_mul (r s : PhasedPauli) :
    controlledPauli p q (r * s) = controlledPauli p q r * controlledPauli p q s := by
  simp only [controlledPauli_eq_pauliExp hp hq hpq]
  rw [pauliExp_mul hq.neg, pauliExp_mul hp.neg, pauliExp_mul (hp.mul_of_not_anti hq hpq)]

theorem controlledPauli_controlledPauli (r : PhasedPauli) :
    controlledPauli p q (controlledPauli p q r) = r := by
  have hqp : anti q p = false := by rw [anti_comm, hpq]
  have hpp : p * p = 1 := hp
  have hqq : q * q = 1 := hq
  cases h1 : anti p r with
  | false =>
    cases h2 : anti q r with
    | false => simp [controlledPauli, h1, h2]
    | true => simp [controlledPauli, h1, h2, hqp, mul_assoc, hpp]
  | true =>
    cases h2 : anti q r with
    | false => simp [controlledPauli, h1, h2, hpq, mul_assoc, hqq]
    | true =>
      have hcomm : p * q = q * p := mul_comm_of_not_anti hpq
      simp only [controlledPauli, h1, h2, anti_mul_right, anti_iPow_right, hpq, hqp, anti_self,
        Bool.false_xor, Bool.xor_false]
      rw [mul_assoc (iPow 2), mul_assoc (iPow 2), iPow_two_mul_iPow_two_mul]
      calc
        r * p * q * p * q = r * (p * q) * (p * q) := by group
        _ = r * (q * p) * (p * q) := by rw [hcomm]
        _ = r * q * (p * p) * q := by group
        _ = r := by rw [hpp, mul_one, mul_assoc, hqq, mul_one]

def controlledPauliHom : PhasedPauli →* PhasedPauli where
  toFun := controlledPauli p q
  map_one' := controlledPauli_iPow p q 0
  map_mul' := controlledPauli_mul hp hq hpq

end ControlledPauli

end PhasedPauli

namespace GeneratorFrame

/-- Exchange the two operators assigned to a qubit. -/
def hadamard (f : GeneratorFrame) (q : ℕ) : GeneratorFrame where
  x i := if i = q then f.z i else f.x i
  z i := if i = q then f.x i else f.z i

theorem Valid.hadamard {f : GeneratorFrame} (hf : f.Valid) (q : ℕ) : (f.hadamard q).Valid where
  orderTwo_x i := by
    by_cases h : i = q <;> simp [GeneratorFrame.hadamard, h, hf.orderTwo_x, hf.orderTwo_z]
  orderTwo_z i := by
    by_cases h : i = q <;> simp [GeneratorFrame.hadamard, h, hf.orderTwo_x, hf.orderTwo_z]
  anti_x_z i j := by
    by_cases hi : i = q <;> by_cases hj : j = q
    · simp [GeneratorFrame.hadamard, hi, hj, anti_comm (f.z q), hf.anti_x_z]
    · simp [GeneratorFrame.hadamard, hi, hj, hf.anti_z_z, Ne.symm hj]
    · simp [GeneratorFrame.hadamard, hi, hj, hf.anti_x_x]
    · simp [GeneratorFrame.hadamard, hi, hj, hf.anti_x_z]
  anti_x_x i j := by
    by_cases hi : i = q <;> by_cases hj : j = q
    · simp [GeneratorFrame.hadamard, hi, hj]
    · simp [GeneratorFrame.hadamard, hi, hj, anti_comm (f.z q), hf.anti_x_z]
    · simp [GeneratorFrame.hadamard, hi, hj, hf.anti_x_z]
    · simp [GeneratorFrame.hadamard, hi, hj, hf.anti_x_x]
  anti_z_z i j := by
    by_cases hi : i = q <;> by_cases hj : j = q
    · simp [GeneratorFrame.hadamard, hi, hj]
    · simp [GeneratorFrame.hadamard, hi, hj, hf.anti_x_z, Ne.symm hj]
    · simp [GeneratorFrame.hadamard, hi, hj, anti_comm (f.z i), hf.anti_x_z, Ne.symm hi]
    · simp [GeneratorFrame.hadamard, hi, hj, hf.anti_z_z]

/-- Reassign the operators of a frame to other qubits. -/
def relabel (f : GeneratorFrame) (σ : ℕ → ℕ) : GeneratorFrame where
  x i := f.x (σ i)
  z i := f.z (σ i)

theorem Valid.relabel {f : GeneratorFrame} (hf : f.Valid) {σ : ℕ → ℕ} (hσ : Function.Injective σ) :
    (f.relabel σ).Valid where
  orderTwo_x i := hf.orderTwo_x (σ i)
  orderTwo_z i := hf.orderTwo_z (σ i)
  anti_x_z i j := by
    change anti (f.x (σ i)) (f.z (σ j)) = _
    rw [hf.anti_x_z]
    simp [hσ.eq_iff]
  anti_x_x i j := hf.anti_x_x (σ i) (σ j)
  anti_z_z i j := hf.anti_z_z (σ i) (σ j)

/-- The frame `f'` is the frame `f` followed by the map `φ` on images. -/
structure Follows (f' f : GeneratorFrame) (φ : PhasedPauli → PhasedPauli) : Prop where
  valid : f'.Valid
  lift_map : ∀ p, f'.lift (φ p) = f.lift p

theorem Follows.refl {f : GeneratorFrame} (hf : f.Valid) : f.Follows f id :=
  ⟨hf, fun _ => rfl⟩

theorem Follows.trans {f f' f'' : GeneratorFrame} {φ φ' : PhasedPauli → PhasedPauli}
    (h' : f''.Follows f' φ') (h : f'.Follows f φ) : f''.Follows f fun p => φ' (φ p) :=
  ⟨h'.valid, fun p => (h'.lift_map (φ p)).trans (h.lift_map p)⟩

variable {φ : PhasedPauli → PhasedPauli}

theorem follows_of_comp {f f' g : GeneratorFrame} (hf : f.Valid)
    (hg : g.Valid) (hf' : f' = f.comp g) (hinv : ∀ p, g.lift (φ p) = p) : f'.Follows f φ := by
  subst hf'
  refine ⟨hf.comp hg, ?_⟩
  intro p
  rw [hf.lift_comp hg, hinv]

variable {f f' : GeneratorFrame}

theorem follows_of_hom
    {ψ : PhasedPauli →* PhasedPauli} (hf : f.Valid) (hψ : ∀ k, ψ (iPow k) = iPow k)
    (hx : ∀ i, f'.x i = f.lift (ψ (X i))) (hz : ∀ i, f'.z i = f.lift (ψ (Z i)))
    (hinv : ∀ p, ψ (φ p) = p) : f'.Follows f φ := by
  apply follows_of_comp hf (valid_ofMap hψ)
  · exact GeneratorFrame.ext (funext hx) (funext hz)
  · intro p
    rw [lift_ofMap hψ, hinv]

theorem Follows.congr {φ ψ : PhasedPauli → PhasedPauli} (h : f'.Follows f φ)
    (heq : ∀ p, ψ p = φ p) : f'.Follows f ψ :=
  ⟨h.valid, fun p => by rw [heq, h.lift_map]⟩

theorem Follows.map_iPow (h : f'.Follows f φ) (k : ZMod 4) : φ (iPow k) = iPow k := by
  apply h.valid.lift_injective
  rw [h.lift_map, lift_iPow, lift_iPow]

theorem Follows.map_mul (hf : f.Valid) (h : f'.Follows f φ) (p q : PhasedPauli) :
    φ (p * q) = φ p * φ q := by
  apply h.valid.lift_injective
  rw [h.valid.lift_mul, h.lift_map, h.lift_map, h.lift_map, hf.lift_mul]

end GeneratorFrame

end QdkEc
