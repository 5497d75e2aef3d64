import QdkEc.Paulimer.CliffordProjection
import QdkEc.Paulimer.CliffordTransvection

/-!
# Signs for tableaux modulo Paulis

This module models the validity of `CliffordUnitaryModPauli` and chooses a sign
for every preimage of such a tableau.  What holds of tableaux with signs then
carries over to tableaux without them.
-/

namespace QdkEc

open PhasedPauli List

namespace PauliUnitaryProjective

/-- Two Paulis commute. -/
def commutesWith (left right : PauliUnitaryProjective) : Bool :=
  !antiCommutesWith left right

def x (qubit : ℕ) : PauliUnitaryProjective where
  xBits := Bits.unit qubit
  zBits := 0

def z (qubit : ℕ) : PauliUnitaryProjective where
  xBits := 0
  zBits := Bits.unit qubit

/-- The positive Hermitian Pauli with the bits of a Pauli without phase. -/
def hermitian (p : PauliUnitaryProjective) : PauliUnitary :=
  PauliUnitary.assignPositiveHermitianPhase ⟨p.xBits, p.zBits, 0⟩

@[simp]
theorem projective_hermitian (p : PauliUnitaryProjective) : p.hermitian.projective = p :=
  rfl

theorem isOrderTwo_hermitian (p : PauliUnitaryProjective) : p.hermitian.isOrderTwo = true :=
  PauliUnitary.isOrderTwo_iff.mpr (PauliUnitary.orderTwo_assignPositiveHermitianPhase _)

theorem hermitian_of_disjoint {p : PauliUnitaryProjective} (h : Bits.inter p.xBits p.zBits = 0) :
    p.hermitian = ⟨p.xBits, p.zBits, 0⟩ := by
  simp [hermitian, PauliUnitary.assignPositiveHermitianPhase, PauliUnitary.yWeight, h]

theorem hermitian_x (q : ℕ) : (x q).hermitian = PauliUnitary.x q :=
  hermitian_of_disjoint (Bits.ext_index fun _ => by simp [x])

theorem hermitian_z (q : ℕ) : (z q).hermitian = PauliUnitary.z q :=
  hermitian_of_disjoint (Bits.ext_index fun _ => by simp [z])

end PauliUnitaryProjective

namespace CliffordUnitaryModPauli

/-- The preimages of a qubit anticommute and commute with those of later qubits. -/
def isValidAt (C : CliffordUnitaryModPauli) (index : ℕ) : Bool :=
  let xPreimage := C.preimageXView index
  let zPreimage := C.preimageZView index
  !(xPreimage.commutesWith zPreimage) &&
    (List.range' (index + 1) (C.numQubits - (index + 1))).all fun otherIndex =>
      let otherXPreimage := C.preimageXView otherIndex
      let otherZPreimage := C.preimageZView otherIndex
      let xx := xPreimage.antiCommutesWith otherXPreimage
      let xz := xPreimage.antiCommutesWith otherZPreimage
      let zx := zPreimage.antiCommutesWith otherXPreimage
      let zz := zPreimage.antiCommutesWith otherZPreimage
      !(xx || xz || zx || zz)

/-- The stored preimages satisfy the relations of the generators modulo phases. -/
def isValid (C : CliffordUnitaryModPauli) : Bool :=
  (List.range C.numQubits).all C.isValidAt

/-- No stored row has a bit at or beyond the last column. -/
def PaddingClear (C : CliffordUnitaryModPauli) : Prop :=
  ∀ i, i < C.numQubits → (C.preimageXView i).Below C.numQubits ∧
    (C.preimageZView i).Below C.numQubits

/-- The tableau is a valid Clifford unitary modulo Paulis on `n` qubits. -/
structure ValidOn (n : ℕ) (C : CliffordUnitaryModPauli) : Prop where
  numQubits_eq : C.numQubits = n
  isValid_eq : C.isValid = true
  paddingClear : C.PaddingClear

instance (C : CliffordUnitaryModPauli) : Decidable C.PaddingClear :=
  inferInstanceAs (Decidable (∀ i, i < C.numQubits → _))

instance (n : ℕ) (C : CliffordUnitaryModPauli) : Decidable (C.ValidOn n) :=
  decidable_of_iff (C.numQubits = n ∧ C.isValid = true ∧ C.PaddingClear)
    ⟨fun h => ⟨h.1, h.2.1, h.2.2⟩, fun h => ⟨h.1, h.2, h.3⟩⟩

/-- Two tableaux hold the same bits. -/
def equalsTo (C D : CliffordUnitaryModPauli) : Bool :=
  CliffordUnitary.bitsEq C.bits D.bits

/-- The tableau whose stored preimages are positive Hermitian. -/
def hermitianLift (D : CliffordUnitaryModPauli) : CliffordUnitary where
  bits := D.bits
  preimagePhaseExponents := (List.range (2 * D.numQubits)).map fun k =>
    if k % 2 = 0 then (D.preimageXView (k / 2)).hermitian.xzPhaseExp
    else (D.preimageZView (k / 2)).hermitian.xzPhaseExp
  rowCount_eq := D.rowCount_eq
  length_eq := by
    rw [length_map, length_range]
    rfl

variable (D : CliffordUnitaryModPauli)

@[simp]
theorem projective_hermitianLift : D.hermitianLift.projective = D :=
  rfl

theorem views_hermitianLift {i : ℕ} (hi : i < D.numQubits) :
    D.hermitianLift.preimageXView i = (D.preimageXView i).hermitian ∧
      D.hermitianLift.preimageZView i = (D.preimageZView i).hermitian := by
  have hx : D.hermitianLift.preimagePhaseExponents.getD (2 * i) 0 =
      (D.preimageXView i).hermitian.xzPhaseExp := by
    have hlt : 2 * i < 2 * D.numQubits := by omega
    simp [hermitianLift, getD_eq_getElem?_getD, hlt]
  have hz : D.hermitianLift.preimagePhaseExponents.getD (2 * i + 1) 0 =
      (D.preimageZView i).hermitian.xzPhaseExp := by
    have hlt : 2 * i + 1 < 2 * D.numQubits := by omega
    simp [hermitianLift, getD_eq_getElem?_getD, hlt, Nat.add_div]
  unfold CliffordUnitary.preimageXView CliffordUnitary.preimageZView
  rw [CliffordUnitary.phaseOfPreimageX, CliffordUnitary.phaseOfPreimageZ, hx, hz]
  exact ⟨rfl, rfl⟩

theorem isValidAt_hermitianLift {i : ℕ} (hi : i < D.numQubits) :
    D.hermitianLift.isValidAt i = D.isValidAt i := by
  have hx : (D.hermitianLift.preimageXView i).isOrderTwo = true := by
    rw [(D.views_hermitianLift hi).1]
    exact PauliUnitaryProjective.isOrderTwo_hermitian _
  have hz : (D.hermitianLift.preimageZView i).isOrderTwo = true := by
    rw [(D.views_hermitianLift hi).2]
    exact PauliUnitaryProjective.isOrderTwo_hermitian _
  simp only [CliffordUnitary.isValidAt, hx, hz, Bool.true_and]
  rfl

theorem validOn_hermitianLift {n : ℕ} {D : CliffordUnitaryModPauli} (h : D.ValidOn n) :
    D.hermitianLift.ValidOn n where
  numQubits_eq := h.numQubits_eq
  isValid_eq := by
    have hvalid := h.isValid_eq
    simp only [isValid, all_eq_true, mem_range] at hvalid
    simp only [CliffordUnitary.isValid, all_eq_true, mem_range]
    intro i hi
    rw [D.isValidAt_hermitianLift hi]
    exact hvalid i hi
  paddingClear := h.paddingClear

theorem validOn_projective {n : ℕ} {C : CliffordUnitary} (h : C.ValidOn n) :
    C.projective.ValidOn n where
  numQubits_eq := h.numQubits_eq
  isValid_eq := by
    have hvalid := h.isValid_eq
    simp only [CliffordUnitary.isValid, all_eq_true, mem_range] at hvalid
    simp only [isValid, all_eq_true, mem_range]
    intro i hi
    have hi' := hvalid i hi
    simp only [CliffordUnitary.isValidAt, Bool.and_assoc, Bool.and_eq_true] at hi'
    exact Bool.and_eq_true_iff.mpr hi'.2.2
  paddingClear := h.paddingClear

end CliffordUnitaryModPauli

end QdkEc
