import QdkEc.Binar.BlockForms
import QdkEc.Lib.PauliAxis
import QdkEc.Paulimer.CliffordModPauli

/-!
# Blocks of a Clifford tableau

This module models the four square blocks of a tableau.  A block is named by an
axis of the bits and an axis of the images: its row `q` and column `k` tell
whether the image of the Pauli of the second axis on qubit `k` has a bit of the
first axis on qubit `q`.
-/

namespace QdkEc

open PhasedPauli

namespace CliffordUnitaryModPauli

open AlignedBitMatrix CliffordUnitary

/-- The first row of a block. -/
def blockOffset (qubitCount : ℕ) : XOrZ → XOrZ → ℕ
  | .X, .X => zOfPreimageZOffset qubitCount
  | .X, .Z => xOfPreimageZOffset qubitCount
  | .Z, .X => zOfPreimageXOffset qubitCount
  | .Z, .Z => xOfPreimageXOffset qubitCount

def blockRestriction (C : CliffordUnitaryModPauli) (bits image : XOrZ) (qubits : List ℕ) :
    List Bits :=
  qubits.map fun q => C.bits.row (q + blockOffset C.numQubits bits image)

/-- The rows of a block. -/
def block (C : CliffordUnitaryModPauli) (bits image : XOrZ) : List Bits :=
  C.blockRestriction bits image (List.range C.numQubits)

/-- The Clifford fixes every `X` up to a sign. -/
def isXDiagonal (C : CliffordUnitaryModPauli) : Bool :=
  isZeroPaddedIdentity (C.block .X .X) && isZeroPaddedIdentity (C.block .Z .Z) &&
    areZeroRows (C.block .Z .X)

/-- The Clifford fixes every `Z` up to a sign. -/
def isZDiagonal (C : CliffordUnitaryModPauli) : Bool :=
  isZeroPaddedIdentity (C.block .X .X) && isZeroPaddedIdentity (C.block .Z .Z) &&
    areZeroRows (C.block .X .Z)

/-- The Clifford is diagonal in an axis. -/
def isDiagonal (C : CliffordUnitaryModPauli) :
    XOrZ → Bool
  | .X => C.isXDiagonal
  | .Z => C.isZDiagonal

/-- The reduced stabilizers, when they are those of a state that is diagonal in `Z`. -/
def isZDiagonalResourceEncoder (C : CliffordUnitaryModPauli) : Option AlignedBitMatrix :=
  isReducedSymmetric C.numQubits (C.block .X .Z ++ C.block .Z .Z)

/-- The reduced stabilizers, when they are those of a state that is diagonal in `X`. -/
def isXDiagonalResourceEncoder (C : CliffordUnitaryModPauli) : Option AlignedBitMatrix :=
  isReducedSymmetric C.numQubits (C.block .Z .Z ++ C.block .X .Z)

@[simp]
theorem length_block (C : CliffordUnitaryModPauli) (bits image : XOrZ) :
    (C.block bits image).length = C.numQubits := by
  simp [block, blockRestriction]

theorem getD_block {C : CliffordUnitaryModPauli} {q : ℕ} (hq : q < C.numQubits)
    (bits image : XOrZ) :
    (C.block bits image).getD q 0 = C.bits.row (q + blockOffset C.numQubits bits image) := by
  simp [block, blockRestriction, hq]

end CliffordUnitaryModPauli

namespace CliffordUnitary

open AlignedBitMatrix CliffordUnitaryModPauli

/-- Overwrite the rows of a block. -/
def assignBlock (C : CliffordUnitary) (bits image : XOrZ) (rows : List Bits) : CliffordUnitary where
  bits := assignRows rows (blockOffset C.numQubits bits image) C.bits
  preimagePhaseExponents := C.preimagePhaseExponents
  rowCount_eq := by simpa using C.rowCount_eq
  length_eq := by simpa using C.length_eq

@[simp]
theorem numQubits_assignBlock (C : CliffordUnitary) (bits image : XOrZ) (rows : List Bits) :
    (C.assignBlock bits image rows).numQubits = C.numQubits :=
  columnCount_assignRows rows _ C.bits

section Assign

variable {C : CliffordUnitary} {rows : List Bits} (hrows : rows.length = C.numQubits)

include hrows

theorem blockOffset_add_le (bits image : XOrZ) :
    blockOffset C.numQubits bits image + rows.length ≤ C.bits.rowCount := by
  have hcount : C.bits.rowCount = 4 * C.numQubits := C.rowCount_eq
  cases bits <;> cases image <;>
    simp only [blockOffset, zOfPreimageZOffset, xOfPreimageZOffset, zOfPreimageXOffset,
      xOfPreimageXOffset] <;> omega

theorem row_assignBlock (bits image : XOrZ) {q : ℕ} (hq : q < C.numQubits) :
    (C.assignBlock bits image rows).bits.row (q + blockOffset C.numQubits bits image) =
      rows.getD q 0 := by
  rw [assignBlock, row_assignRows (blockOffset_add_le hrows bits image), if_pos (by omega),
    Nat.add_sub_cancel]

theorem row_assignBlock_of_not {bits image : XOrZ} {k : ℕ}
    (hk : ¬ (blockOffset C.numQubits bits image ≤ k ∧
      k < blockOffset C.numQubits bits image + C.numQubits)) :
    (C.assignBlock bits image rows).bits.row k = C.bits.row k := by
  rw [assignBlock, row_assignRows (blockOffset_add_le hrows bits image), hrows, if_neg hk]

variable {j : ℕ} (hj : j < C.numQubits)

include hj

theorem views_assignBlock_Z_X : (C.assignBlock .Z .X rows).preimageXView j =
        { C.preimageXView j with zBits := rows.getD j 0 } ∧
      (C.assignBlock .Z .X rows).preimageZView j = C.preimageZView j := by
  have hzx : (C.assignBlock .Z .X rows).bits.row (zOfPx C.numQubits j) = rows.getD j 0 :=
    row_assignBlock hrows .Z .X hj
  have hother : ∀ k, ¬ (C.numQubits ≤ k ∧ k < C.numQubits + C.numQubits) →
      (C.assignBlock .Z .X rows).bits.row k = C.bits.row k :=
    fun k hk => row_assignBlock_of_not hrows hk
  have hxx := hother (xOfPx C.numQubits j) (by simp only [xOfPx, xOfPreimageXOffset]; omega)
  have hxz := hother (xOfPz C.numQubits j) (by simp only [xOfPz, xOfPreimageZOffset]; omega)
  have hzz := hother (zOfPz C.numQubits j) (by simp only [zOfPz, zOfPreimageZOffset]; omega)
  unfold preimageXView preimageZView
  rw [numQubits_assignBlock, hzx, hxx, hxz, hzz]
  exact ⟨rfl, rfl⟩

theorem views_assignBlock_X_Z : (C.assignBlock .X .Z rows).preimageXView j = C.preimageXView j ∧
      (C.assignBlock .X .Z rows).preimageZView j =
        { C.preimageZView j with xBits := rows.getD j 0 } := by
  have hxz : (C.assignBlock .X .Z rows).bits.row (xOfPz C.numQubits j) = rows.getD j 0 :=
    row_assignBlock hrows .X .Z hj
  have hother : ∀ k, ¬ (2 * C.numQubits ≤ k ∧ k < 2 * C.numQubits + C.numQubits) →
      (C.assignBlock .X .Z rows).bits.row k = C.bits.row k :=
    fun k hk => row_assignBlock_of_not hrows hk
  have hxx := hother (xOfPx C.numQubits j) (by simp only [xOfPx, xOfPreimageXOffset]; omega)
  have hzx := hother (zOfPx C.numQubits j) (by simp only [zOfPx, zOfPreimageXOffset]; omega)
  have hzz := hother (zOfPz C.numQubits j) (by simp only [zOfPz, zOfPreimageZOffset]; omega)
  unfold preimageXView preimageZView
  rw [numQubits_assignBlock, hxz, hxx, hzx, hzz]
  exact ⟨rfl, rfl⟩

end Assign

/-- The image of the Pauli of an axis on one qubit. -/
def imageOf (C : CliffordUnitary) :
    XOrZ → ℕ → PauliUnitary
  | .X => C.imageX
  | .Z => C.imageZ

/-- The group that the images of the Paulis of an axis on the first `k` qubits generate. -/
def imageGroup (C : CliffordUnitary) (axis : XOrZ) (k : ℕ) : Subgroup PhasedPauli :=
  Subgroup.closure {r | ∃ q < k, r = (C.imageOf axis q).toPhased}

section Frames

variable {C : CliffordUnitary}

theorem lift_imageOf (hf : C.frame.Valid) {q : ℕ} (hq : q < C.numQubits) (axis : XOrZ) :
    C.frame.lift (C.imageOf axis q).toPhased = axis.pauli q := by
  cases axis
  · exact toPhased_imageX hf hq
  · exact toPhased_imageZ hf hq

theorem getD_block_Z {q : ℕ} (hq : q < C.numQubits) (axis : XOrZ) :
    (C.projective.block axis.other .Z).getD q 0 = (C.frame.lift (axis.pauli q)).xBits := by
  rw [getD_block hq]
  cases axis
  · change _ = (C.frame.lift (X q)).xBits
    rw [GeneratorFrame.lift_X, frame_x hq]
    rfl
  · change _ = (C.frame.lift (Z q)).xBits
    rw [GeneratorFrame.lift_Z, frame_z hq]
    rfl

theorem isDiagonal_projective {axis : XOrZ}
    (haxis : ∀ q, q < C.numQubits → C.frame.lift (axis.pauli q) = axis.pauli q)
    (hother : ∀ q, q < C.numQubits →
      axis.other.bits (C.frame.lift (axis.other.pauli q)) = Bits.unit q) :
    C.projective.isDiagonal axis = true := by
  have hlength := length_block C.projective
  have hrow : ∀ q, q < C.numQubits → ∀ bits image,
      (C.projective.block bits image).getD q 0 =
        match image, bits with
        | .X, .X => (C.frame.lift (Z q)).zBits
        | .Z, .X => (C.frame.lift (Z q)).xBits
        | .X, .Z => (C.frame.lift (X q)).zBits
        | .Z, .Z => (C.frame.lift (X q)).xBits := by
    intro q hq bits image
    rw [getD_block hq, GeneratorFrame.lift_X, GeneratorFrame.lift_Z, frame_x hq, frame_z hq]
    cases bits <;> cases image <;> rfl
  cases axis with
  | X =>
    have hx : ∀ q, q < C.numQubits → C.frame.lift (X q) = X q := haxis
    have hz : ∀ q, q < C.numQubits → (C.frame.lift (Z q)).zBits = Bits.unit q := hother
    unfold isDiagonal isXDiagonal
    rw [Bool.and_eq_true, Bool.and_eq_true, isZeroPaddedIdentity_iff (hlength _ _),
      isZeroPaddedIdentity_iff (hlength _ _), areZeroRows_iff (hlength _ _)]
    refine ⟨⟨fun q hq => ?_, fun q hq => ?_⟩, fun q hq => ?_⟩
    · rw [hrow q hq, hz q hq]
    · rw [hrow q hq, hx q hq]
      rfl
    · rw [hrow q hq, hx q hq]
      rfl
  | Z =>
    have hz : ∀ q, q < C.numQubits → C.frame.lift (Z q) = Z q := haxis
    have hx : ∀ q, q < C.numQubits → (C.frame.lift (X q)).xBits = Bits.unit q := hother
    unfold isDiagonal isZDiagonal
    rw [Bool.and_eq_true, Bool.and_eq_true, isZeroPaddedIdentity_iff (hlength _ _),
      isZeroPaddedIdentity_iff (hlength _ _), areZeroRows_iff (hlength _ _)]
    refine ⟨⟨fun q hq => ?_, fun q hq => ?_⟩, fun q hq => ?_⟩
    · rw [hrow q hq, hz q hq]
      rfl
    · rw [hrow q hq, hx q hq]
    · rw [hrow q hq, hz q hq]
      rfl

end Frames

end CliffordUnitary

end QdkEc
