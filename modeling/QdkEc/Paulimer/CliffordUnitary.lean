import QdkEc.Binar.AlignedBitMatrix
import QdkEc.Lib.GeneratorFrame
import QdkEc.Paulimer.PauliUnitary

/-!
# Clifford unitaries

This module models the tableau of `CliffordUnitary`: a `4n × n` bit matrix that
holds the bits of the preimages of `X_i` and `Z_i`, and one raw phase exponent
for each of the `2n` preimages.  Preimages are read from the rows, images from
the columns.  The frame of a tableau collects the denoted preimages and
continues them by the identity beyond the last qubit.
-/

namespace QdkEc

open PhasedPauli AlignedBitMatrix

/-- A Clifford tableau. -/
structure CliffordUnitary where
  bits : AlignedBitMatrix
  preimagePhaseExponents : List UInt8
  rowCount_eq : bits.rowCount = 4 * bits.columnCount
  length_eq : preimagePhaseExponents.length = 2 * bits.columnCount

namespace CliffordUnitary

/-- The number of qubits. -/
def numQubits (C : CliffordUnitary) : ℕ :=
  C.bits.columnCount

def phaseOfPreimageX (index : ℕ) : ℕ :=
  2 * index

def phaseOfPreimageZ (index : ℕ) : ℕ :=
  2 * index + 1

/-- The first row of the `X` bits of the preimages of `X`. -/
def xOfPreimageXOffset (_dimension : ℕ) : ℕ :=
  0

/-- The first row of the `Z` bits of the preimages of `X`. -/
def zOfPreimageXOffset (dimension : ℕ) : ℕ :=
  dimension

/-- The first row of the `X` bits of the preimages of `Z`. -/
def xOfPreimageZOffset (dimension : ℕ) : ℕ :=
  2 * dimension

/-- The first row of the `Z` bits of the preimages of `Z`. -/
def zOfPreimageZOffset (dimension : ℕ) : ℕ :=
  3 * dimension

/-- The row of the `X` bits of one preimage of `X`. -/
def xOfPx (dimension index : ℕ) : ℕ :=
  index + xOfPreimageXOffset dimension

/-- The row of the `Z` bits of one preimage of `X`. -/
def zOfPx (dimension index : ℕ) : ℕ :=
  index + zOfPreimageXOffset dimension

/-- The row of the `X` bits of one preimage of `Z`. -/
def xOfPz (dimension index : ℕ) : ℕ :=
  index + xOfPreimageZOffset dimension

/-- The row of the `Z` bits of one preimage of `Z`. -/
def zOfPz (dimension index : ℕ) : ℕ :=
  index + zOfPreimageZOffset dimension

/-- The stored preimage of `X` on one qubit. -/
def preimageXView (C : CliffordUnitary) (index : ℕ) : PauliUnitary where
  xBits := C.bits.row (xOfPx C.numQubits index)
  zBits := C.bits.row (zOfPx C.numQubits index)
  xzPhaseExp := C.preimagePhaseExponents.getD (phaseOfPreimageX index) 0

/-- The stored preimage of `Z` on one qubit. -/
def preimageZView (C : CliffordUnitary) (index : ℕ) : PauliUnitary where
  xBits := C.bits.row (xOfPz C.numQubits index)
  zBits := C.bits.row (zOfPz C.numQubits index)
  xzPhaseExp := C.preimagePhaseExponents.getD (phaseOfPreimageZ index) 0

/-- Overwrite the stored preimage of `X` on one qubit. -/
def setPreimageX (C : CliffordUnitary) (index : ℕ) (p : PauliUnitary) : CliffordUnitary where
  bits :=
    (C.bits.setRow (xOfPx C.numQubits index) p.xBits).setRow (zOfPx C.numQubits index) p.zBits
  preimagePhaseExponents := C.preimagePhaseExponents.set (phaseOfPreimageX index) p.xzPhaseExp
  rowCount_eq := C.rowCount_eq
  length_eq := by simpa using C.length_eq

/-- Overwrite the stored preimage of `Z` on one qubit. -/
def setPreimageZ (C : CliffordUnitary) (index : ℕ) (p : PauliUnitary) : CliffordUnitary where
  bits :=
    (C.bits.setRow (xOfPz C.numQubits index) p.xBits).setRow (zOfPz C.numQubits index) p.zBits
  preimagePhaseExponents := C.preimagePhaseExponents.set (phaseOfPreimageZ index) p.xzPhaseExp
  rowCount_eq := C.rowCount_eq
  length_eq := by simpa using C.length_eq

@[simp]
theorem numQubits_setPreimageX (C : CliffordUnitary) (i : ℕ) (p : PauliUnitary) :
    (C.setPreimageX i p).numQubits = C.numQubits :=
  rfl

@[simp]
theorem numQubits_setPreimageZ (C : CliffordUnitary) (i : ℕ) (p : PauliUnitary) :
    (C.setPreimageZ i p).numQubits = C.numQubits :=
  rfl

section Views

variable {C : CliffordUnitary} {i j : ℕ} (hi : i < C.numQubits) (hj : j < C.numQubits)

include hi hj

variable (p : PauliUnitary)

theorem preimageXView_setPreimageX :
    (C.setPreimageX i p).preimageXView j = if j = i then p else C.preimageXView j := by
  have hrows : C.bits.rowCount = 4 * C.numQubits := C.rowCount_eq
  have hlen : C.preimagePhaseExponents.length = 2 * C.numQubits := C.length_eq
  have hx : xOfPx C.numQubits i < C.bits.rowCount := by
    simp only [xOfPx, xOfPreimageXOffset]
    omega
  have hz : zOfPx C.numQubits i < C.bits.rowCount := by
    simp only [zOfPx, zOfPreimageXOffset]
    omega
  have hxz : xOfPx C.numQubits j ≠ zOfPx C.numQubits i := by
    simp only [xOfPx, xOfPreimageXOffset, zOfPx, zOfPreimageXOffset]
    omega
  have hzx : zOfPx C.numQubits j ≠ xOfPx C.numQubits i := by
    simp only [xOfPx, xOfPreimageXOffset, zOfPx, zOfPreimageXOffset]
    omega
  unfold preimageXView
  rw [numQubits_setPreimageX]
  simp only [setPreimageX, row_setRow (m := setRow _ _ _) hz,
    row_setRow hx, if_neg hxz, if_neg hzx, List.getD_eq_getElem?_getD,
    List.getElem?_set]
  by_cases hji : j = i
  · subst hji
    have hphase : phaseOfPreimageX j < C.preimagePhaseExponents.length := by
      simp only [phaseOfPreimageX]
      omega
    simp [hphase]
  · have hx' : xOfPx C.numQubits j ≠ xOfPx C.numQubits i := by simpa [xOfPx] using hji
    have hz' : zOfPx C.numQubits j ≠ zOfPx C.numQubits i := by simpa [zOfPx] using hji
    have hphase : phaseOfPreimageX i ≠ phaseOfPreimageX j := by
      simp only [phaseOfPreimageX]
      omega
    simp [hji, hx', hz', hphase]

theorem preimageZView_setPreimageX :
    (C.setPreimageX i p).preimageZView j = C.preimageZView j := by
  have hrows : C.bits.rowCount = 4 * C.numQubits := C.rowCount_eq
  have hx : xOfPx C.numQubits i < C.bits.rowCount := by
    simp only [xOfPx, xOfPreimageXOffset]
    omega
  have hz : zOfPx C.numQubits i < C.bits.rowCount := by
    simp only [zOfPx, zOfPreimageXOffset]
    omega
  have hrow : ∀ k, 2 * C.numQubits ≤ k →
      (C.setPreimageX i p).bits.row k = C.bits.row k := by
    intro k hk
    have hkz : k ≠ zOfPx C.numQubits i := by
      simp only [zOfPx, zOfPreimageXOffset]
      omega
    have hkx : k ≠ xOfPx C.numQubits i := by
      simp only [xOfPx, xOfPreimageXOffset]
      omega
    simp only [setPreimageX, row_setRow (m := setRow _ _ _) hz,
      row_setRow hx, if_neg hkz, if_neg hkx]
  have hphase : phaseOfPreimageX i ≠ phaseOfPreimageZ j := by
    simp only [phaseOfPreimageX, phaseOfPreimageZ]
    omega
  unfold preimageZView
  rw [numQubits_setPreimageX, hrow _ (by simp only [xOfPz, xOfPreimageZOffset]; omega),
    hrow _ (by simp only [zOfPz, zOfPreimageZOffset]; omega)]
  simp [setPreimageX, List.getD_eq_getElem?_getD, hphase]

theorem preimageZView_setPreimageZ :
    (C.setPreimageZ i p).preimageZView j = if j = i then p else C.preimageZView j := by
  have hrows : C.bits.rowCount = 4 * C.numQubits := C.rowCount_eq
  have hlen : C.preimagePhaseExponents.length = 2 * C.numQubits := C.length_eq
  have hx : xOfPz C.numQubits i < C.bits.rowCount := by
    simp only [xOfPz, xOfPreimageZOffset]
    omega
  have hz : zOfPz C.numQubits i < C.bits.rowCount := by
    simp only [zOfPz, zOfPreimageZOffset]
    omega
  have hxz : xOfPz C.numQubits j ≠ zOfPz C.numQubits i := by
    simp only [xOfPz, xOfPreimageZOffset, zOfPz, zOfPreimageZOffset]
    omega
  have hzx : zOfPz C.numQubits j ≠ xOfPz C.numQubits i := by
    simp only [xOfPz, xOfPreimageZOffset, zOfPz, zOfPreimageZOffset]
    omega
  unfold preimageZView
  rw [numQubits_setPreimageZ]
  simp only [setPreimageZ, row_setRow (m := setRow _ _ _) hz,
    row_setRow hx, if_neg hxz, if_neg hzx, List.getD_eq_getElem?_getD,
    List.getElem?_set]
  by_cases hji : j = i
  · subst hji
    have hphase : phaseOfPreimageZ j < C.preimagePhaseExponents.length := by
      simp only [phaseOfPreimageZ]
      omega
    simp [hphase]
  · have hx' : xOfPz C.numQubits j ≠ xOfPz C.numQubits i := by simpa [xOfPz] using hji
    have hz' : zOfPz C.numQubits j ≠ zOfPz C.numQubits i := by simpa [zOfPz] using hji
    have hphase : phaseOfPreimageZ i ≠ phaseOfPreimageZ j := by
      simp only [phaseOfPreimageZ]
      omega
    simp [hji, hx', hz', hphase]

theorem preimageXView_setPreimageZ :
    (C.setPreimageZ i p).preimageXView j = C.preimageXView j := by
  have hrows : C.bits.rowCount = 4 * C.numQubits := C.rowCount_eq
  have hx : xOfPz C.numQubits i < C.bits.rowCount := by
    simp only [xOfPz, xOfPreimageZOffset]
    omega
  have hz : zOfPz C.numQubits i < C.bits.rowCount := by
    simp only [zOfPz, zOfPreimageZOffset]
    omega
  have hrow : ∀ k, k < 2 * C.numQubits →
      (C.setPreimageZ i p).bits.row k = C.bits.row k := by
    intro k hk
    have hkz : k ≠ zOfPz C.numQubits i := by
      simp only [zOfPz, zOfPreimageZOffset]
      omega
    have hkx : k ≠ xOfPz C.numQubits i := by
      simp only [xOfPz, xOfPreimageZOffset]
      omega
    simp only [setPreimageZ, row_setRow (m := setRow _ _ _) hz,
      row_setRow hx, if_neg hkz, if_neg hkx]
  have hphase : phaseOfPreimageZ i ≠ phaseOfPreimageX j := by
    simp only [phaseOfPreimageX, phaseOfPreimageZ]
    omega
  unfold preimageXView
  rw [numQubits_setPreimageZ, hrow _ (by simp only [xOfPx, xOfPreimageXOffset]; omega),
    hrow _ (by simp only [zOfPx, zOfPreimageXOffset]; omega)]
  simp [setPreimageZ, List.getD_eq_getElem?_getD, hphase]

end Views

/-- Rewrite the preimages of a list of qubits in place, one qubit after the other. -/
def rewritePreimages (C : CliffordUnitary) (gx gz : ℕ → PauliUnitary → PauliUnitary)
    (qubits : List ℕ) :
    CliffordUnitary :=
  qubits.foldl
    (fun C index =>
      let C := C.setPreimageX index (gx index (C.preimageXView index))
      C.setPreimageZ index (gz index (C.preimageZView index)))
    C

@[simp]
theorem numQubits_rewritePreimages (C : CliffordUnitary) (gx gz : ℕ → PauliUnitary → PauliUnitary)
    (qubits : List ℕ) : (C.rewritePreimages gx gz qubits).numQubits = C.numQubits := by
  induction qubits generalizing C with
  | nil => rfl
  | cons index qubits ih => exact ih _

variable {C : CliffordUnitary} {i : ℕ}

theorem views_rewritePreimages (gx gz : ℕ → PauliUnitary → PauliUnitary)
    {qubits : List ℕ} (hnodup : qubits.Nodup) (hlt : ∀ q ∈ qubits, q < C.numQubits) {j : ℕ}
    (hj : j < C.numQubits) : (C.rewritePreimages gx gz qubits).preimageXView j =
        (if j ∈ qubits then gx j (C.preimageXView j) else C.preimageXView j) ∧
      (C.rewritePreimages gx gz qubits).preimageZView j =
        (if j ∈ qubits then gz j (C.preimageZView j) else C.preimageZView j) := by
  induction qubits generalizing C with
  | nil => exact ⟨rfl, rfl⟩
  | cons index qubits ih =>
    obtain ⟨habsent, hnodup⟩ := List.nodup_cons.mp hnodup
    have hindex : index < C.numQubits := hlt index (by simp)
    let C' := C.setPreimageX index (gx index (C.preimageXView index))
    obtain ⟨hx, hz⟩ := ih (C := C'.setPreimageZ index (gz index (C'.preimageZView index)))
      hnodup (fun q hq => hlt q (by simp [hq])) hj
    have hx' : (C'.setPreimageZ index (gz index (C'.preimageZView index))).preimageXView j =
        if j = index then gx index (C.preimageXView index) else C.preimageXView j := by
      rw [preimageXView_setPreimageZ (C := C') hindex hj, preimageXView_setPreimageX hindex hj]
    have hz' : (C'.setPreimageZ index (gz index (C'.preimageZView index))).preimageZView j =
        if j = index then gz index (C.preimageZView index) else C.preimageZView j := by
      rw [preimageZView_setPreimageZ (C := C') hindex hj,
        preimageZView_setPreimageX hindex hindex, preimageZView_setPreimageX hindex hj]
    by_cases hji : j = index
    · subst hji
      rw [if_pos rfl] at hx' hz'
      rw [if_neg habsent] at hx hz
      rw [if_pos (by simp), if_pos (by simp)]
      exact ⟨hx.trans hx', hz.trans hz'⟩
    · rw [if_neg hji] at hx' hz'
      rw [hx'] at hx
      rw [hz'] at hz
      simp only [List.mem_cons, hji, false_or]
      exact ⟨hx, hz⟩

/-- The denoted preimages, continued by the identity beyond the last qubit. -/
def frame (C : CliffordUnitary) : GeneratorFrame where
  x i := if i < C.numQubits then (C.preimageXView i).toPhased else X i
  z i := if i < C.numQubits then (C.preimageZView i).toPhased else Z i

theorem fixesFrom_frame (C : CliffordUnitary) : C.frame.FixesFrom C.numQubits := by
  intro i hi
  simp [frame, Nat.not_lt.mpr hi]

theorem frame_x (hi : i < C.numQubits) :
    C.frame.x i = (C.preimageXView i).toPhased := by
  simp [frame, hi]

theorem frame_z (hi : i < C.numQubits) :
    C.frame.z i = (C.preimageZView i).toPhased := by
  simp [frame, hi]

theorem frame_x_of_le (hi : C.numQubits ≤ i) : C.frame.x i = X i :=
  (C.fixesFrom_frame i hi).1

theorem frame_z_of_le (hi : C.numQubits ≤ i) : C.frame.z i = Z i :=
  (C.fixesFrom_frame i hi).2

theorem frame_x_setPreimageX (hi : i < C.numQubits) (p : PauliUnitary)
    (j : ℕ) : (C.setPreimageX i p).frame.x j = if j = i then p.toPhased else C.frame.x j := by
  by_cases hj : j < C.numQubits
  · rw [frame_x (by simpa using hj), frame_x hj, preimageXView_setPreimageX hi hj]
    split_ifs <;> rfl
  · have hne : j ≠ i := by omega
    rw [frame_x_of_le (by simpa using hj), frame_x_of_le (by omega), if_neg hne]

theorem frame_z_setPreimageX (hi : i < C.numQubits) (p : PauliUnitary)
    (j : ℕ) : (C.setPreimageX i p).frame.z j = C.frame.z j := by
  by_cases hj : j < C.numQubits
  · rw [frame_z (by simpa using hj), frame_z hj, preimageZView_setPreimageX hi hj]
  · rw [frame_z_of_le (by simpa using hj), frame_z_of_le (by omega)]

theorem frame_z_setPreimageZ (hi : i < C.numQubits) (p : PauliUnitary)
    (j : ℕ) : (C.setPreimageZ i p).frame.z j = if j = i then p.toPhased else C.frame.z j := by
  by_cases hj : j < C.numQubits
  · rw [frame_z (by simpa using hj), frame_z hj, preimageZView_setPreimageZ hi hj]
    split_ifs <;> rfl
  · have hne : j ≠ i := by omega
    rw [frame_z_of_le (by simpa using hj), frame_z_of_le (by omega), if_neg hne]

theorem frame_x_setPreimageZ (hi : i < C.numQubits) (p : PauliUnitary)
    (j : ℕ) : (C.setPreimageZ i p).frame.x j = C.frame.x j := by
  by_cases hj : j < C.numQubits
  · rw [frame_x (by simpa using hj), frame_x hj, preimageXView_setPreimageZ hi hj]
  · rw [frame_x_of_le (by simpa using hj), frame_x_of_le (by omega)]

end CliffordUnitary

end QdkEc
