import QdkEc.Lib.Conjugation
import QdkEc.Paulimer.CliffordImages

/-!
# Left multiplication of Clifford unitaries

This module models the mutating operations of `CliffordUnitary` and states, for
each of them, which conjugation map the new frame follows.
-/

namespace QdkEc

open PhasedPauli AlignedBitMatrix GeneratorFrame PauliUnitary Equiv

namespace CliffordUnitary

/-- Left multiplication by a controlled `X`. -/
def leftMulCx (C : CliffordUnitary) (controlId targetId : ℕ) : CliffordUnitary :=
  let C := C.setPreimageX controlId
    ((C.preimageXView controlId).mulAssignLeft (C.preimageXView targetId))
  C.setPreimageZ targetId ((C.preimageZView targetId).mulAssignLeft (C.preimageZView controlId))

/-- Left multiplication by a controlled `Z`. -/
def leftMulCz (C : CliffordUnitary) (controlId targetId : ℕ) : CliffordUnitary :=
  let C := C.setPreimageX controlId
    ((C.preimageXView controlId).mulAssignLeft (C.preimageZView targetId))
  C.setPreimageX targetId ((C.preimageXView targetId).mulAssignLeft (C.preimageZView controlId))

/-- Multiply the preimage of `X` by that of `Z` on the left and by a power of `i`. -/
def mulPreimageXByZ (C : CliffordUnitary) (qubitId : ℕ) (phaseExp : UInt8) : CliffordUnitary :=
  C.setPreimageX qubitId
    (((C.preimageXView qubitId).mulAssignLeft (C.preimageZView qubitId)).addAssignPhaseExp phaseExp)

/-- Multiply the preimage of `Z` by that of `X` on the left and by a power of `i`. -/
def mulPreimageZByX (C : CliffordUnitary) (qubitId : ℕ) (phaseExp : UInt8) : CliffordUnitary :=
  C.setPreimageZ qubitId
    (((C.preimageZView qubitId).mulAssignLeft (C.preimageXView qubitId)).addAssignPhaseExp phaseExp)

def leftMulRootZ (C : CliffordUnitary) (qubitId : ℕ) : CliffordUnitary :=
  C.mulPreimageXByZ qubitId 1

/-- Left multiplication by the inverse square root of `Z`. -/
def leftMulRootZInverse (C : CliffordUnitary) (qubitId : ℕ) : CliffordUnitary :=
  C.mulPreimageXByZ qubitId 3

def leftMulRootX (C : CliffordUnitary) (qubitId : ℕ) : CliffordUnitary :=
  C.mulPreimageZByX qubitId 1

/-- Left multiplication by the inverse square root of `X`. -/
def leftMulRootXInverse (C : CliffordUnitary) (qubitId : ℕ) : CliffordUnitary :=
  C.mulPreimageZByX qubitId 3

def leftMulX (C : CliffordUnitary) (qubitId : ℕ) : CliffordUnitary :=
  C.setPreimageZ qubitId ((C.preimageZView qubitId).addAssignPhaseExp 2)

def leftMulZ (C : CliffordUnitary) (qubitId : ℕ) : CliffordUnitary :=
  C.setPreimageX qubitId ((C.preimageXView qubitId).addAssignPhaseExp 2)

def leftMulY (C : CliffordUnitary) (qubitId : ℕ) : CliffordUnitary :=
  let C := C.setPreimageX qubitId ((C.preimageXView qubitId).addAssignPhaseExp 2)
  C.setPreimageZ qubitId ((C.preimageZView qubitId).addAssignPhaseExp 2)

/-- Left multiplication by a Hadamard gate, which exchanges rows and phases. -/
def leftMulHadamard (C : CliffordUnitary) (qubitId : ℕ) : CliffordUnitary where
  bits :=
    (C.bits.swapRows (xOfPx C.numQubits qubitId) (xOfPz C.numQubits qubitId)).swapRows
      (zOfPx C.numQubits qubitId) (zOfPz C.numQubits qubitId)
  preimagePhaseExponents :=
    AlignedBitMatrix.swapEntries C.preimagePhaseExponents (phaseOfPreimageX qubitId)
      (phaseOfPreimageZ qubitId)
  rowCount_eq := by simpa using C.rowCount_eq
  length_eq := by simpa [length_swapEntries] using C.length_eq

/-- Exchange the rows of two qubits. -/
def swapCliffordBits (dimension qubit1Id qubit2Id : ℕ) (bits : AlignedBitMatrix) :
    AlignedBitMatrix :=
  (((bits.swapRows (xOfPx dimension qubit1Id) (xOfPx dimension qubit2Id)).swapRows
    (zOfPx dimension qubit1Id) (zOfPx dimension qubit2Id)).swapRows
      (xOfPz dimension qubit1Id) (xOfPz dimension qubit2Id)).swapRows
        (zOfPz dimension qubit1Id) (zOfPz dimension qubit2Id)

/-- Left multiplication by a swap of two qubits. -/
def leftMulSwap (C : CliffordUnitary) (qubit1Id qubit2Id : ℕ) : CliffordUnitary where
  bits := swapCliffordBits C.numQubits qubit1Id qubit2Id C.bits
  preimagePhaseExponents :=
    AlignedBitMatrix.swapEntries
      (AlignedBitMatrix.swapEntries C.preimagePhaseExponents (phaseOfPreimageX qubit1Id)
        (phaseOfPreimageX qubit2Id))
      (phaseOfPreimageZ qubit1Id) (phaseOfPreimageZ qubit2Id)
  rowCount_eq := by simpa [swapCliffordBits] using C.rowCount_eq
  length_eq := by simpa [swapCliffordBits, length_swapEntries] using C.length_eq

def leftMulRootY (C : CliffordUnitary) (qubitId : ℕ) : CliffordUnitary :=
  (C.leftMulZ qubitId).leftMulHadamard qubitId

/-- Left multiplication by the inverse square root of `Y`. -/
def leftMulRootYInverse (C : CliffordUnitary) (qubitId : ℕ) : CliffordUnitary :=
  (C.leftMulHadamard qubitId).leftMulZ qubitId

/-- Left multiplication by the preparation of a Bell pair. -/
def leftMulPrepareBell (C : CliffordUnitary) (qubitIndex1 qubitIndex2 : ℕ) : CliffordUnitary :=
  (C.leftMulHadamard qubitIndex1).leftMulCx qubitIndex1 qubitIndex2

@[simp]
theorem numQubits_leftMulHadamard (C : CliffordUnitary) (q : ℕ) :
    (C.leftMulHadamard q).numQubits = C.numQubits :=
  rfl

@[simp]
theorem numQubits_leftMulZ (C : CliffordUnitary) (q : ℕ) : (C.leftMulZ q).numQubits = C.numQubits :=
  rfl

variable {q : ℕ} {C' : CliffordUnitary}

section Gates

variable {C : CliffordUnitary} (hf : C.frame.Valid)

theorem follows_pauliExp_of_frame {C C' : CliffordUnitary} (hf : C.frame.Valid) {q : PhasedPauli}
    (hq : q.OrderTwo) (hx : ∀ i, C'.frame.x i = C.frame.lift (pauliExp q (X i)))
    (hz : ∀ i, C'.frame.z i = C.frame.lift (pauliExp q (Z i))) :
    C'.frame.Follows C.frame (pauliExp (iPow 2 * q)) := by
  refine follows_of_hom (ψ := pauliExpHom q hq) hf (pauliExp_iPow q) hx hz ?_
  intro p
  have hinv := pauliExp_neg_pauliExp hq.neg p
  rwa [iPow_two_mul_iPow_two_mul] at hinv

include hf

section

variable (hq : q < C.numQubits)

include hq

theorem follows_mulPreimageXByZ (phaseExp : UInt8) {b : Bool}
    (hphase : phaseResidue phaseExp = 1 + twist b) :
    (C.mulPreimageXByZ q phaseExp).frame.Follows C.frame
      (pauliExp (iPow 2 * (iPow (twist b) * Z q))) := by
  apply follows_pauliExp_of_frame hf ((orderTwo_Z q).sign_mul b)
  · intro i
    rw [mulPreimageXByZ, frame_x_setPreimageX hq, toPhased_addAssignPhaseExp,
      toPhased_mulAssignLeft, hphase, ← frame_x hq, ← frame_z hq]
    by_cases hi : i = q
    · subst hi
      rw [if_pos rfl, pauliExp_of_anti (by simp), iPow_add]
      simp [hf.lift_mul, mul_assoc]
    · rw [if_neg hi, pauliExp_of_not_anti (by simp [Ne.symm hi]), lift_X]
  · intro i
    rw [mulPreimageXByZ, frame_z_setPreimageX hq, pauliExp_of_not_anti (by simp), lift_Z]

theorem follows_mulPreimageZByX (phaseExp : UInt8) {b : Bool}
    (hphase : phaseResidue phaseExp = 1 + twist b) :
    (C.mulPreimageZByX q phaseExp).frame.Follows C.frame
      (pauliExp (iPow 2 * (iPow (twist b) * X q))) := by
  apply follows_pauliExp_of_frame hf ((orderTwo_X q).sign_mul b)
  · intro i
    rw [mulPreimageZByX, frame_x_setPreimageZ hq, pauliExp_of_not_anti (by simp), lift_X]
  · intro i
    rw [mulPreimageZByX, frame_z_setPreimageZ hq, toPhased_addAssignPhaseExp,
      toPhased_mulAssignLeft, hphase, ← frame_x hq, ← frame_z hq]
    by_cases hi : i = q
    · subst hi
      rw [if_pos rfl, pauliExp_of_anti (by simp), iPow_add]
      simp [hf.lift_mul, mul_assoc]
    · rw [if_neg hi, pauliExp_of_not_anti (by simp [Ne.symm hi]), lift_Z]

theorem follows_leftMulRootZ :
    (C.leftMulRootZ q).frame.Follows C.frame (pauliExp (iPow 2 * Z q)) := by
  have h := follows_mulPreimageXByZ (b := false) hf hq 1 rfl
  rwa [twist_false, iPow_zero, one_mul] at h

theorem follows_leftMulRootZInverse :
    (C.leftMulRootZInverse q).frame.Follows C.frame (pauliExp (Z q)) := by
  have h := follows_mulPreimageXByZ (b := true) hf hq 3 rfl
  rwa [twist_true, iPow_two_mul_iPow_two_mul] at h

theorem follows_leftMulRootX :
    (C.leftMulRootX q).frame.Follows C.frame (pauliExp (iPow 2 * X q)) := by
  have h := follows_mulPreimageZByX (b := false) hf hq 1 rfl
  rwa [twist_false, iPow_zero, one_mul] at h

theorem follows_leftMulRootXInverse :
    (C.leftMulRootXInverse q).frame.Follows C.frame (pauliExp (X q)) := by
  have h := follows_mulPreimageZByX (b := true) hf hq 3 rfl
  rwa [twist_true, iPow_two_mul_iPow_two_mul] at h

end

theorem follows_conjugate_of_frame {p : PhasedPauli}
    (hx : ∀ i, C'.frame.x i = iPow (twist (p.zBits.index i)) * C.frame.x i)
    (hz : ∀ i, C'.frame.z i = iPow (twist (p.xBits.index i)) * C.frame.z i) :
    C'.frame.Follows C.frame (conjugate p) := by
  refine follows_of_hom (ψ := conjugate p) hf (conjugate_iPow p) ?_ ?_
    (conjugate_conjugate p)
  · intro i
    rw [hx, conjugate_apply, anti_X_right, hf.lift_iPow_mul, lift_X]
  · intro i
    rw [hz, conjugate_apply, anti_Z_right, hf.lift_iPow_mul, lift_Z]

theorem follows_leftMulX (hq : q < C.numQubits) :
    (C.leftMulX q).frame.Follows C.frame (conjugate (X q)) := by
  apply follows_conjugate_of_frame hf
  · intro i
    rw [leftMulX, frame_x_setPreimageZ hq]
    simp
  · intro i
    rw [leftMulX, frame_z_setPreimageZ hq, toPhased_addAssignPhaseExp, ← frame_z hq]
    by_cases hi : i = q
    · subst hi
      simp [phaseResidue]
    · simp [hi, Ne.symm hi]

theorem follows_leftMulZ (hq : q < C.numQubits) :
    (C.leftMulZ q).frame.Follows C.frame (conjugate (Z q)) := by
  apply follows_conjugate_of_frame hf
  · intro i
    rw [leftMulZ, frame_x_setPreimageX hq, toPhased_addAssignPhaseExp, ← frame_x hq]
    by_cases hi : i = q
    · subst hi
      simp [phaseResidue]
    · simp [hi, Ne.symm hi]
  · intro i
    rw [leftMulZ, frame_z_setPreimageX hq]
    simp

theorem follows_leftMulY (hq : q < C.numQubits) :
    (C.leftMulY q).frame.Follows C.frame (conjugate (X q * Z q)) := by
  have hsplit : C.leftMulY q = (C.leftMulZ q).leftMulX q := rfl
  have hz := follows_leftMulZ hf hq
  have hx := follows_leftMulX hz.valid (q := q) hq
  exact (hx.trans hz).congr (conjugate_mul_apply (X q) (Z q))

end Gates

section RowSwaps

variable {C : CliffordUnitary}

theorem views_leftMulHadamard {q j : ℕ} (hq : q < C.numQubits) (hj : j < C.numQubits) :
    (C.leftMulHadamard q).preimageXView j =
        (if j = q then C.preimageZView j else C.preimageXView j) ∧
      (C.leftMulHadamard q).preimageZView j =
        (if j = q then C.preimageXView j else C.preimageZView j) := by
  have hrows : C.bits.rowCount = 4 * C.numQubits := C.rowCount_eq
  have hlen : C.preimagePhaseExponents.length = 2 * C.numQubits := C.length_eq
  have hrow : ∀ k, (C.leftMulHadamard q).bits.row k =
      C.bits.row (Equiv.swap q (q + 2 * C.numQubits)
        (Equiv.swap (q + C.numQubits) (q + 3 * C.numQubits) k)) := by
    intro k
    simp only [leftMulHadamard, xOfPx, xOfPz, zOfPx, zOfPz, xOfPreimageXOffset, zOfPreimageXOffset,
      xOfPreimageZOffset, zOfPreimageZOffset, add_zero]
    rw [row_swapRows, row_swapRows]
    all_goals simp only [rowCount_swapRows, hrows]
    all_goals omega
  have hphase : ∀ k, (C.leftMulHadamard q).preimagePhaseExponents.getD k 0 =
      C.preimagePhaseExponents.getD (Equiv.swap (2 * q) (2 * q + 1) k) 0 := by
    intro k
    exact getD_swapEntries (by simp only [phaseOfPreimageX]; omega)
      (by simp only [phaseOfPreimageZ]; omega) k 0
  simp only [preimageXView, preimageZView, numQubits_leftMulHadamard, hrow, hphase, xOfPx, xOfPz,
    zOfPx, zOfPz, xOfPreimageXOffset, zOfPreimageXOffset, xOfPreimageZOffset, zOfPreimageZOffset,
    add_zero, phaseOfPreimageX, phaseOfPreimageZ]
  by_cases hjq : j = q
  · subst hjq
    simp only [if_true]
    rw [swap_apply_of_ne_of_ne (a := j + C.numQubits) (x := j) (by omega) (by omega),
      swap_apply_left, swap_apply_left,
      swap_apply_of_ne_of_ne (a := j) (x := j + 3 * C.numQubits) (by omega) (by omega),
      swap_apply_left,
      swap_apply_of_ne_of_ne (a := j + C.numQubits) (x := j + 2 * C.numQubits) (by omega)
        (by omega),
      swap_apply_right, swap_apply_right,
      swap_apply_of_ne_of_ne (a := j) (x := j + C.numQubits) (by omega) (by omega),
      swap_apply_right]
    exact ⟨rfl, rfl⟩
  · have hfix : ∀ k, k = j ∨ k = j + C.numQubits ∨ k = j + 2 * C.numQubits ∨
        k = j + 3 * C.numQubits →
          Equiv.swap q (q + 2 * C.numQubits)
            (Equiv.swap (q + C.numQubits) (q + 3 * C.numQubits) k) = k := by
      intro k hk
      rw [swap_apply_of_ne_of_ne (a := q + C.numQubits) (by omega) (by omega),
        swap_apply_of_ne_of_ne (by omega) (by omega)]
    rw [hfix j (by omega), hfix (j + C.numQubits) (by omega), hfix (j + 2 * C.numQubits) (by omega),
      hfix (j + 3 * C.numQubits) (by omega),
      swap_apply_of_ne_of_ne (x := 2 * j) (by omega) (by omega),
      swap_apply_of_ne_of_ne (x := 2 * j + 1) (by omega) (by omega), if_neg hjq, if_neg hjq]
    exact ⟨rfl, rfl⟩

theorem frame_leftMulHadamard (hq : q < C.numQubits) :
    (C.leftMulHadamard q).frame = C.frame.hadamard q := by
  have hne : ∀ i, C.numQubits ≤ i → i ≠ q := by
    intro i hi
    omega
  apply GeneratorFrame.ext
  · funext i
    by_cases hi : i < C.numQubits
    · rw [frame_x (by simpa using hi), (views_leftMulHadamard hq hi).1]
      simp only [hadamard]
      rw [frame_x hi, frame_z hi]
      split_ifs <;> rfl
    · simp [frame, hadamard, hi, hne i (Nat.not_lt.mp hi)]
  · funext i
    by_cases hi : i < C.numQubits
    · rw [frame_z (by simpa using hi), (views_leftMulHadamard hq hi).2]
      simp only [hadamard]
      rw [frame_x hi, frame_z hi]
      split_ifs <;> rfl
    · simp [frame, hadamard, hi, hne i (Nat.not_lt.mp hi)]

theorem views_leftMulSwap {q r j : ℕ} (hq : q < C.numQubits) (hr : r < C.numQubits)
    (hj : j < C.numQubits) :
    (C.leftMulSwap q r).preimageXView j = C.preimageXView (Equiv.swap q r j) ∧
      (C.leftMulSwap q r).preimageZView j = C.preimageZView (Equiv.swap q r j) := by
  have hrows : C.bits.rowCount = 4 * C.numQubits := C.rowCount_eq
  have hlen : C.preimagePhaseExponents.length = 2 * C.numQubits := C.length_eq
  have hn : (C.leftMulSwap q r).numQubits = C.numQubits := rfl
  have hrow : ∀ k, (C.leftMulSwap q r).bits.row k =
      C.bits.row (Equiv.swap q r (Equiv.swap (q + C.numQubits) (r + C.numQubits)
        (Equiv.swap (q + 2 * C.numQubits) (r + 2 * C.numQubits)
          (Equiv.swap (q + 3 * C.numQubits) (r + 3 * C.numQubits) k)))) := by
    intro k
    simp only [leftMulSwap, swapCliffordBits, xOfPx, xOfPz, zOfPx, zOfPz, xOfPreimageXOffset,
      zOfPreimageXOffset, xOfPreimageZOffset, zOfPreimageZOffset, add_zero]
    rw [row_swapRows, row_swapRows, row_swapRows, row_swapRows]
    all_goals simp only [rowCount_swapRows, hrows]
    all_goals omega
  have hphase : ∀ k, (C.leftMulSwap q r).preimagePhaseExponents.getD k 0 =
      C.preimagePhaseExponents.getD
        (Equiv.swap (2 * q) (2 * r) (Equiv.swap (2 * q + 1) (2 * r + 1) k)) 0 := by
    intro k
    simp only [leftMulSwap, phaseOfPreimageX, phaseOfPreimageZ]
    rw [getD_swapEntries (by rw [length_swapEntries]; omega)
        (by rw [length_swapEntries]; omega),
      getD_swapEntries (by omega) (by omega)]
  have hshift : ∀ m, Equiv.swap (q + m) (r + m) (j + m) = Equiv.swap q r j + m := by
    intro m
    simp only [swap_apply_def]
    split_ifs <;> omega
  have heven : Equiv.swap (2 * q) (2 * r) (2 * j) = 2 * Equiv.swap q r j := by
    simp only [swap_apply_def]
    split_ifs <;> omega
  have hodd : Equiv.swap (2 * q + 1) (2 * r + 1) (2 * j + 1) = 2 * Equiv.swap q r j + 1 := by
    simp only [swap_apply_def]
    split_ifs <;> omega
  have hstay : ∀ a b k : ℕ, k ≠ a → k ≠ b → Equiv.swap a b k = k := by
    intro a b k
    exact swap_apply_of_ne_of_ne
  have hrow0 : (C.leftMulSwap q r).bits.row j = C.bits.row (Equiv.swap q r j) := by
    rw [hrow, hstay _ _ j (by omega) (by omega), hstay _ _ j (by omega) (by omega),
      hstay _ _ j (by omega) (by omega)]
  have hrow1 : (C.leftMulSwap q r).bits.row (j + C.numQubits) =
      C.bits.row (Equiv.swap q r j + C.numQubits) := by
    rw [hrow, hstay _ _ (j + C.numQubits) (by omega) (by omega),
      hstay _ _ (j + C.numQubits) (by omega) (by omega), hshift,
      hstay _ _ (_ + C.numQubits) (by omega) (by omega)]
  have hrow2 : (C.leftMulSwap q r).bits.row (j + 2 * C.numQubits) =
      C.bits.row (Equiv.swap q r j + 2 * C.numQubits) := by
    rw [hrow, hstay _ _ (j + 2 * C.numQubits) (by omega) (by omega), hshift,
      hstay _ _ (_ + 2 * C.numQubits) (by omega) (by omega),
      hstay _ _ (_ + 2 * C.numQubits) (by omega) (by omega)]
  have hrow3 : (C.leftMulSwap q r).bits.row (j + 3 * C.numQubits) =
      C.bits.row (Equiv.swap q r j + 3 * C.numQubits) := by
    rw [hrow, hshift, hstay _ _ (_ + 3 * C.numQubits) (by omega) (by omega),
      hstay _ _ (_ + 3 * C.numQubits) (by omega) (by omega),
      hstay _ _ (_ + 3 * C.numQubits) (by omega) (by omega)]
  simp only [preimageXView, preimageZView, hn, hphase, xOfPx, xOfPz, zOfPx, zOfPz,
    xOfPreimageXOffset, zOfPreimageXOffset, xOfPreimageZOffset, zOfPreimageZOffset, add_zero,
    phaseOfPreimageX, phaseOfPreimageZ]
  rw [hrow0, hrow1, hrow2, hrow3, hstay _ _ (2 * j) (by omega) (by omega), heven, hodd,
    hstay _ _ (2 * Equiv.swap q r j + 1) (by omega) (by omega)]
  exact ⟨rfl, rfl⟩

theorem frame_leftMulSwap {q r : ℕ} (hq : q < C.numQubits) (hr : r < C.numQubits) :
    (C.leftMulSwap q r).frame = C.frame.relabel (Equiv.swap q r) := by
  have hn : (C.leftMulSwap q r).numQubits = C.numQubits := rfl
  have hlt : ∀ i, Equiv.swap q r i < C.numQubits ↔ i < C.numQubits := by
    intro i
    rw [swap_apply_def]
    split_ifs <;> omega
  have hfar : ∀ i, C.numQubits ≤ i → Equiv.swap q r i = i := by
    intro i hi
    exact swap_apply_of_ne_of_ne (by omega) (by omega)
  apply GeneratorFrame.ext
  · funext i
    by_cases hi : i < C.numQubits
    · rw [frame_x (by simpa [hn] using hi), (views_leftMulSwap hq hr hi).1]
      exact (frame_x ((hlt i).mpr hi)).symm
    · simp [frame, relabel, hn, hfar i (Nat.not_lt.mp hi), hi]
  · funext i
    by_cases hi : i < C.numQubits
    · rw [frame_z (by simpa [hn] using hi), (views_leftMulSwap hq hr hi).2]
      exact (frame_z ((hlt i).mpr hi)).symm
    · simp [frame, relabel, hn, hfar i (Nat.not_lt.mp hi), hi]

end RowSwaps

section CompositeGates

variable {C : CliffordUnitary} (hf : C.frame.Valid)

include hf

theorem follows_leftMulHadamard (hq : q < C.numQubits) :
    (C.leftMulHadamard q).frame.Follows C.frame (GeneratorFrame.identity.hadamard q).lift := by
  have hvalid := valid_identity.hadamard q
  refine follows_of_comp hf hvalid ?_ ?_
  · rw [frame_leftMulHadamard hq]
    apply GeneratorFrame.ext
    · funext i
      by_cases hi : i = q <;> simp [hadamard, comp, GeneratorFrame.identity, hi]
    · funext i
      by_cases hi : i = q <;> simp [hadamard, comp, GeneratorFrame.identity, hi]
  · intro p
    rw [← hvalid.lift_comp hvalid, ← lift_identity p]
    congr 1
    · apply GeneratorFrame.ext
      · funext i
        by_cases hi : i = q <;> simp [hadamard, comp, GeneratorFrame.identity, hi]
      · funext i
        by_cases hi : i = q <;> simp [hadamard, comp, GeneratorFrame.identity, hi]
    · rw [lift_identity]

theorem follows_of_relabel (σ : Equiv.Perm ℕ) (hframe : C'.frame = C.frame.relabel σ) :
    C'.frame.Follows C.frame (GeneratorFrame.identity.relabel σ.symm).lift := by
  have hσ := valid_identity.relabel σ.injective
  have hσ' := valid_identity.relabel σ.symm.injective
  refine follows_of_comp hf hσ ?_ ?_
  · rw [hframe]
    apply GeneratorFrame.ext
    · funext i
      simp [relabel, comp, GeneratorFrame.identity]
    · funext i
      simp [relabel, comp, GeneratorFrame.identity]
  · intro p
    rw [← hσ.lift_comp hσ']
    have hid : (GeneratorFrame.identity.relabel σ).comp (GeneratorFrame.identity.relabel σ.symm) =
        GeneratorFrame.identity := by
      apply GeneratorFrame.ext
      · funext i
        simp [relabel, comp, GeneratorFrame.identity]
      · funext i
        simp [relabel, comp, GeneratorFrame.identity]
    rw [hid, lift_identity]

theorem follows_leftMulSwap {q r : ℕ} (hq : q < C.numQubits) (hr : r < C.numQubits) :
    (C.leftMulSwap q r).frame.Follows C.frame
      (GeneratorFrame.identity.relabel (Equiv.swap q r)).lift :=
  follows_of_relabel hf (Equiv.swap q r) (frame_leftMulSwap hq hr)

theorem follows_leftMulRootY (hq : q < C.numQubits) : (C.leftMulRootY q).frame.Follows C.frame
      fun p => (GeneratorFrame.identity.hadamard q).lift (conjugate (Z q) p) := by
  have hz := follows_leftMulZ hf hq
  exact (follows_leftMulHadamard hz.valid (q := q) hq).trans hz

theorem follows_leftMulRootYInverse (hq : q < C.numQubits) :
    (C.leftMulRootYInverse q).frame.Follows C.frame
      fun p => conjugate (Z q) ((GeneratorFrame.identity.hadamard q).lift p) := by
  have hh := follows_leftMulHadamard hf hq
  exact (follows_leftMulZ hh.valid (q := q) hq).trans hh

theorem follows_controlledPauli_of_frame {p q : PhasedPauli}
    (hp : p.OrderTwo) (hq : q.OrderTwo) (hpq : anti p q = false)
    (hx : ∀ i, C'.frame.x i = C.frame.lift (controlledPauli p q (X i)))
    (hz : ∀ i, C'.frame.z i = C.frame.lift (controlledPauli p q (Z i))) :
    C'.frame.Follows C.frame (controlledPauli p q) :=
  follows_of_hom (ψ := controlledPauliHom hp hq hpq) hf (controlledPauli_iPow p q)
    hx hz (controlledPauli_controlledPauli hp hq hpq)

theorem follows_leftMulCx {c t : ℕ} (hc : c < C.numQubits) (ht : t < C.numQubits) (hct : c ≠ t) :
    (C.leftMulCx c t).frame.Follows C.frame (controlledPauli (Z c) (X t)) := by
  apply follows_controlledPauli_of_frame hf (orderTwo_Z c) (orderTwo_X t)
  · simp [hct]
  · intro i
    simp only [leftMulCx]
    rw [frame_x_setPreimageZ (by simpa using ht), frame_x_setPreimageX hc,
      toPhased_mulAssignLeft, ← frame_x hc, ← frame_x ht]
    by_cases hi : i = c
    · subst hi
      rw [if_pos rfl, hf.x_mul_comm]
      simp [controlledPauli, hf.lift_mul]
    · simp [controlledPauli, hi, Ne.symm hi]
  · intro i
    simp only [leftMulCx]
    rw [frame_z_setPreimageZ (by simpa using ht), frame_z_setPreimageX hc,
      toPhased_mulAssignLeft, preimageZView_setPreimageX hc ht,
      preimageZView_setPreimageX hc hc, ← frame_z hc, ← frame_z ht]
    by_cases hi : i = t
    · subst hi
      rw [if_pos rfl, hf.z_mul_comm]
      simp [controlledPauli, hf.lift_mul]
    · simp [controlledPauli, hi, Ne.symm hi]

theorem follows_leftMulCz {c t : ℕ} (hc : c < C.numQubits) (ht : t < C.numQubits) (hct : c ≠ t) :
    (C.leftMulCz c t).frame.Follows C.frame (controlledPauli (Z c) (Z t)) := by
  apply follows_controlledPauli_of_frame hf (orderTwo_Z c) (orderTwo_Z t)
  · simp
  · intro i
    have hzx : C.frame.z c * C.frame.x t = C.frame.x t * C.frame.z c :=
      mul_comm_of_not_anti (by rw [anti_comm, hf.anti_x_z]; simp [hct.symm])
    have hxz : C.frame.z t * C.frame.x c = C.frame.x c * C.frame.z t :=
      mul_comm_of_not_anti (by rw [anti_comm, hf.anti_x_z]; simp [hct])
    simp only [leftMulCz]
    rw [frame_x_setPreimageX (by simpa using ht), frame_x_setPreimageX hc,
      toPhased_mulAssignLeft, toPhased_mulAssignLeft,
      preimageXView_setPreimageX hc ht, preimageZView_setPreimageX hc hc, if_neg hct.symm,
      ← frame_x hc, ← frame_x ht, ← frame_z hc, ← frame_z ht, hzx, hxz]
    by_cases hit : i = t
    · subst hit
      simp [controlledPauli, hf.lift_mul, hct]
    · by_cases hic : i = c
      · subst hic
        simp [controlledPauli, hf.lift_mul, hit, Ne.symm hit]
      · simp [controlledPauli, hit, hic, Ne.symm hit, Ne.symm hic]
  · intro i
    simp only [leftMulCz]
    rw [frame_z_setPreimageX (by simpa using ht), frame_z_setPreimageX hc]
    simp [controlledPauli]

theorem follows_leftMulPrepareBell {q r : ℕ} (hq : q < C.numQubits) (hr : r < C.numQubits)
    (hqr : q ≠ r) : (C.leftMulPrepareBell q r).frame.Follows C.frame
      fun p => controlledPauli (Z q) (X r) ((GeneratorFrame.identity.hadamard q).lift p) := by
  have hh := follows_leftMulHadamard hf hq
  exact (follows_leftMulCx hh.valid (c := q) (t := r) hq hr hqr).trans hh

end CompositeGates

end CliffordUnitary

end QdkEc
