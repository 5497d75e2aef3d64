import QdkEc.Lib.StabilizerGroup

/-!
# Pauli axes and diagonal frames

One of the two axes of a Pauli is singled out.  A frame is diagonal in an axis
when it fixes the Paulis of that axis; it is then determined by where it sends
the Paulis of the other axis, and these images generate the stabilizers of the
state that it makes of the product state of the other axis.
-/

namespace QdkEc

open PhasedPauli GeneratorFrame Bits

/-- One of the two axes of a Pauli. -/
inductive XOrZ where
  | X
  | Z
deriving DecidableEq

variable {p q : PhasedPauli}

namespace XOrZ

/-- The other axis. -/
def other : XOrZ → XOrZ
  | X => Z
  | Z => X

/-- The Pauli of an axis on one qubit. -/
def pauli : XOrZ → ℕ → PhasedPauli
  | X => PhasedPauli.X
  | Z => PhasedPauli.Z

/-- The bits of an operator on an axis. -/
def bits : XOrZ → PhasedPauli → Bits
  | X => PhasedPauli.xBits
  | Z => PhasedPauli.zBits

/-- The operator with a phase and with bits across and along an axis. -/
def operator : XOrZ → ZMod 4 → Bits → Bits → PhasedPauli
  | X, k, across, along => ⟨k, along, across⟩
  | Z, k, across, along => ⟨k, across, along⟩

variable (axis : XOrZ)

@[simp]
theorem bits_mul (p q : PhasedPauli) : axis.bits (p * q) = axis.bits p + axis.bits q := by
  cases axis <;> rfl

@[simp]
theorem bits_iPow (k : ZMod 4) : axis.bits (iPow k) = 0 := by
  cases axis <;> rfl

@[simp]
theorem bits_operator (k : ZMod 4) (across along : Bits) :
    axis.bits (axis.operator k across along) = along ∧
      axis.other.bits (axis.operator k across along) = across := by
  cases axis <;> exact ⟨rfl, rfl⟩

@[simp]
theorem phase_operator (k : ZMod 4) (across along : Bits) :
    (axis.operator k across along).phase = k := by
  cases axis <;> rfl

theorem operator_bits (p : PhasedPauli) :
    axis.operator p.phase (axis.other.bits p) (axis.bits p) = p := by
  cases axis <;> rfl

theorem index_other_bits (p : PhasedPauli) (q : ℕ) :
    (axis.other.bits p).index q = anti p (axis.pauli q) := by
  cases axis <;> simp [other, bits, pauli]

theorem index_bits (p : PhasedPauli) (q : ℕ) :
    (axis.bits p).index q = anti p (axis.other.pauli q) := by
  cases axis <;> simp [other, bits, pauli]

theorem anti_pauli (i j : ℕ) : anti (axis.pauli i) (axis.pauli j) = false := by
  cases axis <;> simp [pauli]

theorem anti_other_pauli (i j : ℕ) : anti (axis.other.pauli i) (axis.pauli j) = decide (i = j) := by
  cases axis <;> simp [other, pauli]

theorem orderTwo_pauli (q : ℕ) : OrderTwo (axis.pauli q) := by
  cases axis
  · exact orderTwo_X q
  · exact orderTwo_Z q

theorem below_iff {n : ℕ} {p : PhasedPauli} :
    Below n p ↔ (axis.other.bits p).Below n ∧ (axis.bits p).Below n := by
  cases axis
  · exact and_comm
  · exact Iff.rfl

theorem eq_iPow_of_bits {p : PhasedPauli} (hacross : axis.other.bits p = 0)
    (halong : axis.bits p = 0) : p = iPow p.phase := by
  conv_lhs => rw [← axis.operator_bits p, hacross, halong]
  cases axis <;> rfl

theorem anti_of_other_bits_eq_zero {p : PhasedPauli} (hp : axis.other.bits p = 0)
    (q : PhasedPauli) : anti p q = Bits.dot (axis.bits p) (axis.other.bits q) := by
  cases axis
  · have hz : p.zBits = 0 := hp
    simp [anti, hz, bits, other]
  · have hx : p.xBits = 0 := hp
    simp [anti, hx, bits, other]

theorem anti_of_units {i j : ℕ} (hp : axis.other.bits p = unit i)
    (hq : axis.other.bits q = unit j) :
    anti p q = ((axis.bits p).index j ^^ (axis.bits q).index i) := by
  cases axis with
  | X =>
    have hpz : p.zBits = unit i := hp
    have hqz : q.zBits = unit j := hq
    simp [anti, hpz, hqz, bits]
  | Z =>
    have hpx : p.xBits = unit i := hp
    have hqx : q.xBits = unit j := hq
    simp [anti, hpx, hqx, bits, Bool.xor_comm]

theorem exists_twist_mul_of_bits (hp : OrderTwo p) (hq : OrderTwo q)
    (hacross : axis.other.bits p = axis.other.bits q) (halong : axis.bits p = axis.bits q) :
    ∃ b, p = iPow (twist b) * q := by
  have hratio : p = iPow (p.phase - q.phase) * q := by
    conv_lhs => rw [← axis.operator_bits p, hacross, halong]
    cases axis <;> ext1 <;> simp [operator, bits, other]
  have hbits : p.xBits = q.xBits ∧ p.zBits = q.zBits := by
    cases axis
    · exact ⟨halong, hacross⟩
    · exact ⟨hacross, halong⟩
  rw [orderTwo_iff_phase, hbits.1, hbits.2] at hp
  rw [orderTwo_iff_phase] at hq
  obtain ⟨b, hb⟩ := exists_twist_of_add_self (k := p.phase - q.phase) (by
    linear_combination hp - hq)
  exact ⟨b, by rw [← hb]; exact hratio⟩

end XOrZ

/-- Members of a commuting group without scalars on `n` qubits whose bits across an axis are the
units. -/
structure IsGraph (axis : XOrZ) (n : ℕ) (S : Subgroup PhasedPauli) (g : ℕ → PhasedPauli) :
    Prop where
  commutes : ∀ p ∈ S, ∀ q ∈ S, anti p q = false
  scalar_eq_zero : ∀ k, iPow k ∈ S → k = 0
  below : ∀ p ∈ S, Below n p
  mem : ∀ q < n, g q ∈ S
  across : ∀ q < n, axis.other.bits (g q) = Bits.unit q

namespace IsGraph

variable {axis : XOrZ} {n : ℕ} {S : Subgroup PhasedPauli} {g : ℕ → PhasedPauli}

theorem eq_one (h : IsGraph axis n S g) {r : PhasedPauli} (hr : r ∈ S)
    (hc : axis.other.bits r = 0) : r = 1 := by
  have halong : axis.bits r = 0 := by
    refine ext_index fun q => ?_
    rw [index_zero]
    rcases Nat.lt_or_ge q n with hq | hq
    · have hzero := h.commutes r hr _ (h.mem q hq)
      rwa [axis.anti_of_other_bits_eq_zero hc, h.across q hq, dot_unit_right] at hzero
    · exact (axis.below_iff.mp (h.below r hr)).2.index_eq_false hq
  have hscalar := axis.eq_iPow_of_bits hc halong
  rw [hscalar] at hr
  rw [hscalar, h.scalar_eq_zero _ hr, iPow_zero]

theorem eq_of_other_bits_eq (h : IsGraph axis n S g) (hp : p ∈ S) (hq : q ∈ S)
    (hbits : axis.other.bits p = axis.other.bits q) : p = q := by
  have hinv : axis.other.bits q⁻¹ = axis.other.bits q := by
    cases axis <;> rfl
  refine mul_inv_eq_one.mp (h.eq_one (S.mul_mem hp (S.inv_mem hq)) ?_)
  rw [XOrZ.bits_mul, hinv, hbits, add_self]

theorem closure_eq (h : IsGraph axis n S g) : Subgroup.closure {r | ∃ q < n, r = g q} = S := by
  refine le_antisymm ((Subgroup.closure_le _).mpr ?_) ?_
  · rintro _ ⟨q, hq, rfl⟩
    exact h.mem q hq
  · have hclear : ∀ c : Bits, ∀ r ∈ S, axis.other.bits r = c →
        r ∈ Subgroup.closure {r | ∃ q < n, r = g q} := by
      intro c
      induction c using unit_induction with
      | zero =>
        intro r hr hc
        rw [h.eq_one hr hc]
        exact Subgroup.one_mem _
      | unit_add q c hq ih =>
        intro r hr hc
        have hlt : q < n := by
          have hrBelow := (axis.below_iff.mp (h.below r hr)).1
          rw [hc] at hrBelow
          exact hrBelow.lt_of_index (by simp [hq])
        have hnext := ih (r * g q) (S.mul_mem hr (h.mem q hlt)) (by
          rw [XOrZ.bits_mul, hc, h.across q hlt, add_comm, add_add_cancel_left])
        have hgen : g q ∈ Subgroup.closure {r | ∃ q < n, r = g q} :=
          Subgroup.subset_closure ⟨q, hlt, rfl⟩
        exact (Subgroup.mul_mem_cancel_right _ hgen).mp hnext
    intro r hr
    exact hclear _ r hr rfl

end IsGraph

/-- The frame that fixes the Paulis of an axis and moves those of the other one. -/
def diagonalFrame (axis : XOrZ) (n : ℕ) (g : ℕ → PhasedPauli) : GeneratorFrame :=
  let across := fun q => if q < n then g q else axis.other.pauli q
  match axis with
  | .X => ⟨PhasedPauli.X, across⟩
  | .Z => ⟨across, PhasedPauli.Z⟩

section DiagonalFrame

variable (axis : XOrZ) {n : ℕ} (g : ℕ → PhasedPauli)

@[simp]
theorem lift_diagonalFrame_pauli (q : ℕ) :
    (diagonalFrame axis n g).lift (axis.pauli q) = axis.pauli q := by
  cases axis <;> simp [diagonalFrame, XOrZ.pauli]

theorem lift_diagonalFrame_other_pauli (q : ℕ) :
    (diagonalFrame axis n g).lift (axis.other.pauli q) =
      if q < n then g q else axis.other.pauli q := by
  cases axis <;> simp [diagonalFrame, XOrZ.pauli, XOrZ.other]

theorem fixesFrom_diagonalFrame : (diagonalFrame axis n g).FixesFrom n := by
  intro q hq
  have hlt : ¬ q < n := by omega
  cases axis <;> simp [diagonalFrame, XOrZ.pauli, XOrZ.other, hlt]

variable {g}

theorem valid_diagonalFrame (htwo : ∀ q < n, OrderTwo (g q))
    (hacross : ∀ q < n, axis.other.bits (g q) = unit q) (hbelow : ∀ q < n, Below n (g q))
    (hcomm : ∀ i < n, ∀ j < n, anti (g i) (g j) = false) : (diagonalFrame axis n g).Valid := by
  let a : ℕ → PhasedPauli := fun q => if q < n then g q else axis.other.pauli q
  have haTwo : ∀ q, OrderTwo (a q) := by
    intro q
    by_cases hq : q < n
    · simpa [a, hq] using htwo q hq
    · simpa [a, hq] using axis.other.orderTwo_pauli q
  have haPauli : ∀ i j, anti (a i) (axis.pauli j) = decide (i = j) := by
    intro i j
    by_cases hi : i < n
    · rw [← axis.index_other_bits]
      simp [a, hi, hacross i hi]
    · simpa [a, hi] using axis.anti_other_pauli i j
  have hmixed : ∀ i < n, ∀ j, ¬ j < n → anti (g i) (axis.other.pauli j) = false := by
    intro i hi j hj
    rw [← axis.index_bits]
    exact (axis.below_iff.mp (hbelow i hi)).2.index_eq_false (by omega)
  have haSelf : ∀ i j, anti (a i) (a j) = false := by
    intro i j
    by_cases hi : i < n <;> by_cases hj : j < n
    · simpa [a, hi, hj] using hcomm i hi j hj
    · simpa [a, hi, hj] using hmixed i hi j hj
    · simpa [a, hi, hj, anti_comm] using hmixed j hj i hi
    · simpa [a, hi, hj] using axis.other.anti_pauli i j
  cases axis with
  | X =>
    refine ⟨orderTwo_X, haTwo, fun i j => ?_, XOrZ.anti_pauli .X, haSelf⟩
    rw [anti_comm]
    refine (haPauli j i).trans ?_
    simp [eq_comm]
  | Z => exact ⟨haTwo, orderTwo_Z, haPauli, haSelf, XOrZ.anti_pauli .Z⟩

theorem lift_diagonalFrame_operator {q : ℕ} (hq : q < n) {k : ZMod 4} {s : Bits}
    (hg : g q = axis.operator k (unit q) s) :
    (diagonalFrame axis n g).lift (axis.operator (-k) (unit q) s) = axis.other.pauli q := by
  cases axis with
  | X =>
    have hx : orderedProd PhasedPauli.X s = xProduct s := by
      have hidentity := lift_identity (xProduct s)
      simpa [lift, identity, xProduct] using hidentity
    have hlift : (diagonalFrame .X n g).lift (XOrZ.operator .X (-k) (unit q) s) =
        iPow (-k) * xProduct s * g q := by
      simp [diagonalFrame, lift, XOrZ.operator, hx, hq]
    rw [hlift, hg]
    ext1 <;> simp [XOrZ.operator, XOrZ.other, XOrZ.pauli, xProduct]
  | Z =>
    have hz : orderedProd PhasedPauli.Z s = zProduct s := by
      have hidentity := lift_identity (zProduct s)
      simpa [lift, identity, zProduct] using hidentity
    have hlift : (diagonalFrame .Z n g).lift (XOrZ.operator .Z (-k) (unit q) s) =
        iPow (-k) * g q * zProduct s := by
      simp [diagonalFrame, lift, XOrZ.operator, hz, hq]
    rw [hlift, hg]
    ext1 <;> simp [XOrZ.operator, XOrZ.other, XOrZ.pauli, zProduct]

end DiagonalFrame

end QdkEc
