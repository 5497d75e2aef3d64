import QdkEc.Paulimer.CliffordResize

/-!
# Clifford unitaries modulo Paulis

This module models `CliffordUnitaryModPauli`: the bit matrix of a tableau
without its phases.  It has its own operations, in which every phase update is
absent.  Forgetting the phases of a tableau commutes with each of them.
-/

namespace QdkEc

/-- A Pauli without its phase. -/
structure PauliUnitaryProjective where
  xBits : Bits
  zBits : Bits
deriving DecidableEq

namespace PauliUnitaryProjective

/-- The identity. -/
def neutralElement : PauliUnitaryProjective where
  xBits := 0
  zBits := 0

/-- Multiply by another Pauli on the right. -/
def mulAssignRight (p rhs : PauliUnitaryProjective) : PauliUnitaryProjective where
  xBits := p.xBits + rhs.xBits
  zBits := p.zBits + rhs.zBits

/-- Multiply by another Pauli on the left. -/
def mulAssignLeft (p lhs : PauliUnitaryProjective) : PauliUnitaryProjective where
  xBits := p.xBits + lhs.xBits
  zBits := p.zBits + lhs.zBits

def mulAssignLeftX (p : PauliUnitaryProjective) (qubit : ℕ) : PauliUnitaryProjective :=
  { p with xBits := Bits.unit qubit + p.xBits }

def mulAssignRightZ (p : PauliUnitaryProjective) (qubit : ℕ) : PauliUnitaryProjective :=
  { p with zBits := Bits.unit qubit + p.zBits }

/-- Copy a range of bits of a Pauli at an offset. -/
def assignWithOffset (p rhs : PauliUnitaryProjective) (startQubitIndex numQubits : ℕ) :
    PauliUnitaryProjective where
  xBits := PauliUnitary.assignBitsWithOffset p.xBits rhs.xBits startQubitIndex numQubits
  zBits := PauliUnitary.assignBitsWithOffset p.zBits rhs.zBits startQubitIndex numQubits

def isPauliX (p : PauliUnitaryProjective) (qubit : ℕ) : Bool :=
  p.xBits == Bits.unit qubit && p.zBits == 0

def isPauliZ (p : PauliUnitaryProjective) (qubit : ℕ) : Bool :=
  p.xBits == 0 && p.zBits == Bits.unit qubit

/-- Two Paulis anticommute. -/
def antiCommutesWith (left right : PauliUnitaryProjective) : Bool :=
  Bits.dot left.xBits right.zBits ^^ Bits.dot left.zBits right.xBits

/-- The Pauli acts on the first `n` qubits only. -/
def Below (n : ℕ) (p : PauliUnitaryProjective) : Prop :=
  p.xBits.Below n ∧ p.zBits.Below n

instance (n : ℕ) (p : PauliUnitaryProjective) : Decidable (p.Below n) :=
  inferInstanceAs (Decidable (_ ∧ _))

end PauliUnitaryProjective

/-- Forget the phase of a Pauli. -/
def PauliUnitary.projective (p : PauliUnitary) : PauliUnitaryProjective where
  xBits := p.xBits
  zBits := p.zBits

/-- A Clifford tableau without phases. -/
structure CliffordUnitaryModPauli where
  bits : AlignedBitMatrix
  rowCount_eq : bits.rowCount = 4 * bits.columnCount

/-- Forget the phases of a tableau. -/
def CliffordUnitary.projective (C : CliffordUnitary) : CliffordUnitaryModPauli where
  bits := C.bits
  rowCount_eq := C.rowCount_eq

namespace CliffordUnitaryModPauli

open CliffordUnitary (xOfPx zOfPx xOfPz zOfPz projectiveImageAt zOfPreimageZOffset
  zOfPreimageXOffset xOfPreimageZOffset xOfPreimageXOffset swapCliffordBits isPermutation
  hasNoDuplicates)

/-- The number of qubits. -/
def numQubits (C : CliffordUnitaryModPauli) : ℕ :=
  C.bits.columnCount

/-- The stored preimage of `X` on one qubit. -/
def preimageXView (C : CliffordUnitaryModPauli) (index : ℕ) : PauliUnitaryProjective where
  xBits := C.bits.row (xOfPx C.numQubits index)
  zBits := C.bits.row (zOfPx C.numQubits index)

/-- The stored preimage of `Z` on one qubit. -/
def preimageZView (C : CliffordUnitaryModPauli) (index : ℕ) : PauliUnitaryProjective where
  xBits := C.bits.row (xOfPz C.numQubits index)
  zBits := C.bits.row (zOfPz C.numQubits index)

/-- Overwrite the stored preimage of `X` on one qubit. -/
def setPreimageX (C : CliffordUnitaryModPauli) (index : ℕ) (p : PauliUnitaryProjective) :
    CliffordUnitaryModPauli where
  bits :=
    (C.bits.setRow (xOfPx C.numQubits index) p.xBits).setRow (zOfPx C.numQubits index) p.zBits
  rowCount_eq := C.rowCount_eq

/-- Overwrite the stored preimage of `Z` on one qubit. -/
def setPreimageZ (C : CliffordUnitaryModPauli) (index : ℕ) (p : PauliUnitaryProjective) :
    CliffordUnitaryModPauli where
  bits :=
    (C.bits.setRow (xOfPz C.numQubits index) p.xBits).setRow (zOfPz C.numQubits index) p.zBits
  rowCount_eq := C.rowCount_eq

/-- Rewrite the preimages of a list of qubits in place, one qubit after the other. -/
def rewritePreimages (C : CliffordUnitaryModPauli)
    (gx gz : ℕ → PauliUnitaryProjective → PauliUnitaryProjective) (qubits : List ℕ) :
    CliffordUnitaryModPauli :=
  qubits.foldl
    (fun C index =>
      let C := C.setPreimageX index (gx index (C.preimageXView index))
      C.setPreimageZ index (gz index (C.preimageZView index)))
    C

/-- The tableau whose preimages are all the identity operator. -/
def zero (numQubits : ℕ) : CliffordUnitaryModPauli where
  bits := AlignedBitMatrix.zeros (numQubits * 4) numQubits
  rowCount_eq := AlignedBitMatrix.rowCount_zeros_mul_four numQubits

/-- The identity tableau. -/
def identity (numQubits : ℕ) : CliffordUnitaryModPauli :=
  (zero numQubits).rewritePreimages (fun index p => p.mulAssignLeftX index)
    (fun index p => p.mulAssignRightZ index) (List.range (zero numQubits).numQubits)

def preimage (C : CliffordUnitaryModPauli) (pauli : PauliUnitaryProjective) :
    PauliUnitaryProjective :=
  let target := pauli.xBits.support.foldl
    (fun target id => target.mulAssignRight (C.preimageXView id))
    PauliUnitaryProjective.neutralElement
  pauli.zBits.support.foldl (fun target id => target.mulAssignRight (C.preimageZView id)) target

/-- The image of `X` on one qubit, read from one column. -/
def xImageView (C : CliffordUnitaryModPauli) (qubitIndex : ℕ) : PauliUnitaryProjective :=
  let bits := projectiveImageAt C.bits C.numQubits qubitIndex (zOfPreimageZOffset C.numQubits)
    (zOfPreimageXOffset C.numQubits)
  ⟨bits.1, bits.2⟩

/-- The image of `Z` on one qubit, read from one column. -/
def zImageView (C : CliffordUnitaryModPauli) (qubitIndex : ℕ) : PauliUnitaryProjective :=
  let bits := projectiveImageAt C.bits C.numQubits qubitIndex (xOfPreimageZOffset C.numQubits)
    (xOfPreimageXOffset C.numQubits)
  ⟨bits.1, bits.2⟩

def image (C : CliffordUnitaryModPauli) (pauli : PauliUnitaryProjective) : PauliUnitaryProjective :=
  let target := pauli.xBits.support.foldl
    (fun target id => target.mulAssignRight (C.xImageView id))
    PauliUnitaryProjective.neutralElement
  pauli.zBits.support.foldl (fun target id => target.mulAssignRight (C.zImageView id)) target

/-- Left multiplication by `X`, which changes phases only. -/
def leftMulX (C : CliffordUnitaryModPauli) (_qubitIndex : ℕ) : CliffordUnitaryModPauli :=
  C

/-- Left multiplication by `Y`, which changes phases only. -/
def leftMulY (C : CliffordUnitaryModPauli) (_qubitIndex : ℕ) : CliffordUnitaryModPauli :=
  C

/-- Left multiplication by `Z`, which changes phases only. -/
def leftMulZ (C : CliffordUnitaryModPauli) (_qubitIndex : ℕ) : CliffordUnitaryModPauli :=
  C

/-- Left multiplication by a controlled `X`. -/
def leftMulCx (C : CliffordUnitaryModPauli) (controlId targetId : ℕ) : CliffordUnitaryModPauli :=
  let C := C.setPreimageX controlId
    ((C.preimageXView controlId).mulAssignLeft (C.preimageXView targetId))
  C.setPreimageZ targetId ((C.preimageZView targetId).mulAssignLeft (C.preimageZView controlId))

/-- Left multiplication by a controlled `Z`. -/
def leftMulCz (C : CliffordUnitaryModPauli) (controlId targetId : ℕ) : CliffordUnitaryModPauli :=
  let C := C.setPreimageX controlId
    ((C.preimageXView controlId).mulAssignLeft (C.preimageZView targetId))
  C.setPreimageX targetId ((C.preimageXView targetId).mulAssignLeft (C.preimageZView controlId))

/-- Left multiplication by a square root of `Z` or its inverse. -/
def leftMulRootZ (C : CliffordUnitaryModPauli) (qubitId : ℕ) : CliffordUnitaryModPauli :=
  C.setPreimageX qubitId ((C.preimageXView qubitId).mulAssignLeft (C.preimageZView qubitId))

/-- Left multiplication by a square root of `X` or its inverse. -/
def leftMulRootX (C : CliffordUnitaryModPauli) (qubitId : ℕ) : CliffordUnitaryModPauli :=
  C.setPreimageZ qubitId ((C.preimageZView qubitId).mulAssignLeft (C.preimageXView qubitId))

/-- Left multiplication by a Hadamard gate, which exchanges rows. -/
def leftMulHadamard (C : CliffordUnitaryModPauli) (qubitId : ℕ) : CliffordUnitaryModPauli where
  bits :=
    (C.bits.swapRows (xOfPx C.numQubits qubitId) (xOfPz C.numQubits qubitId)).swapRows
      (zOfPx C.numQubits qubitId) (zOfPz C.numQubits qubitId)
  rowCount_eq := by simpa using C.rowCount_eq

/-- Left multiplication by a swap of two qubits. -/
def leftMulSwap (C : CliffordUnitaryModPauli) (qubit1Id qubit2Id : ℕ) :
    CliffordUnitaryModPauli where
  bits := swapCliffordBits C.numQubits qubit1Id qubit2Id C.bits
  rowCount_eq := by simpa [swapCliffordBits] using C.rowCount_eq

def leftMulRootY (C : CliffordUnitaryModPauli) (qubitId : ℕ) : CliffordUnitaryModPauli :=
  (C.leftMulZ qubitId).leftMulHadamard qubitId

/-- Left multiplication by the inverse square root of `Y`. -/
def leftMulRootYInverse (C : CliffordUnitaryModPauli) (qubitId : ℕ) : CliffordUnitaryModPauli :=
  (C.leftMulHadamard qubitId).leftMulZ qubitId

/-- Left multiplication by the preparation of a Bell pair. -/
def leftMulPrepareBell (C : CliffordUnitaryModPauli) (qubitIndex1 qubitIndex2 : ℕ) :
    CliffordUnitaryModPauli :=
  (C.leftMulHadamard qubitIndex1).leftMulCx qubitIndex1 qubitIndex2

/-- Left multiplication by a named gate; `none` is a failed assertion on the support. -/
def leftMul (C : CliffordUnitaryModPauli) (unitaryOp : UnitaryOp) (support : List ℕ) :
    Option CliffordUnitaryModPauli :=
  match unitaryOp, support with
  | .I, _ => some C
  | .X, [q] => some (C.leftMulX q)
  | .Y, [q] => some (C.leftMulY q)
  | .Z, [q] => some (C.leftMulZ q)
  | .SqrtX, [q] => some (C.leftMulRootX q)
  | .SqrtXInv, [q] => some (C.leftMulRootX q)
  | .SqrtY, [q] => some (C.leftMulRootY q)
  | .SqrtYInv, [q] => some (C.leftMulRootYInverse q)
  | .SqrtZ, [q] => some (C.leftMulRootZ q)
  | .SqrtZInv, [q] => some (C.leftMulRootZ q)
  | .Hadamard, [q] => some (C.leftMulHadamard q)
  | .Swap, [q, r] => if q ≠ r then some (C.leftMulSwap q r) else none
  | .ControlledX, [q, r] => if q ≠ r then some (C.leftMulCx q r) else none
  | .ControlledZ, [q, r] => if q ≠ r then some (C.leftMulCz q r) else none
  | .PrepareBell, [q, r] => if q ≠ r then some (C.leftMulPrepareBell q r) else none
  | _, _ => none

/-- Rewrite the preimages of `Z` on one support and those of `X` on another. -/
def updatePreimages (C : CliffordUnitaryModPauli)
    (g : PauliUnitaryProjective → PauliUnitaryProjective) (pauli : PauliUnitaryProjective) :
    CliffordUnitaryModPauli :=
  let C := pauli.xBits.support.foldl
    (fun C index => C.setPreimageZ index (g (C.preimageZView index))) C
  pauli.zBits.support.foldl (fun C index => C.setPreimageX index (g (C.preimageXView index))) C

def leftMulPauli (C : CliffordUnitaryModPauli) (pauli : PauliUnitaryProjective) :
    CliffordUnitaryModPauli :=
  let C := pauli.xBits.support.foldl leftMulX C
  pauli.zBits.support.foldl leftMulZ C

/-- Left multiplication by a Pauli exponential. -/
def leftMulPauliExp (C : CliffordUnitaryModPauli) (pauli : PauliUnitaryProjective) :
    CliffordUnitaryModPauli :=
  if 0 < C.numQubits then
    let pauliPreimage := C.preimage pauli
    C.updatePreimages (fun p => p.mulAssignRight pauliPreimage) pauli
  else C

def leftMulControlledPauli (C : CliffordUnitaryModPauli) (control target : PauliUnitaryProjective) :
    CliffordUnitaryModPauli :=
  if 0 < C.numQubits then
    let targetPreimage := C.preimage target
    let controlPreimage := C.preimage control
    (C.updatePreimages (fun p => p.mulAssignRight targetPreimage) control).updatePreimages
      (fun p => p.mulAssignLeft controlPreimage) target
  else C

/-- Assign new preimages to the qubits of a support, one after the other. -/
def assignPreimages (C : CliffordUnitaryModPauli) (support : List ℕ)
    (newPreimages : List (PauliUnitaryProjective × PauliUnitaryProjective)) :
    CliffordUnitaryModPauli :=
  (support.zip newPreimages).foldl
    (fun C entry => (C.setPreimageX entry.1 entry.2.1).setPreimageZ entry.1 entry.2.2) C

/-- Left multiplication by a permutation of a support; `none` is a failed assertion. -/
def leftMulPermutation (C : CliffordUnitaryModPauli) (permutation support : List ℕ) :
    Option CliffordUnitaryModPauli :=
  if isPermutation permutation && hasNoDuplicates support &&
      permutation.length == support.length then
    some (C.assignPreimages support ((List.range support.length).map fun eltIndex =>
      let source := support.getD (permutation.getD eltIndex 0) 0
      (C.preimageXView source, C.preimageZView source)))
  else none

/-- Move a Pauli onto the qubits of a support. -/
def sparseProjectivePauliOnSupport (pauli : PauliUnitaryProjective) (support : List ℕ) :
    PauliUnitaryProjective where
  xBits := Bits.fromIndices (pauli.xBits.support.map fun bit => support.getD bit 0)
  zBits := Bits.fromIndices (pauli.zBits.support.map fun bit => support.getD bit 0)

/-- Left multiplication by a Clifford unitary on a support; `none` is a failed assertion. -/
def leftMulClifford (C clifford : CliffordUnitaryModPauli) (support : List ℕ) :
    Option CliffordUnitaryModPauli :=
  if support.length == clifford.numQubits && hasNoDuplicates support then
    some (C.assignPreimages support ((List.range support.length).map fun eltIndex =>
      (C.preimage (sparseProjectivePauliOnSupport (clifford.preimageXView eltIndex) support),
        C.preimage (sparseProjectivePauliOnSupport (clifford.preimageZView eltIndex) support))))
  else none

/-- The product; `none` is a failed assertion. -/
def multiplyWith (left right : CliffordUnitaryModPauli) : Option CliffordUnitaryModPauli :=
  if left.numQubits = right.numQubits then
    some ((zero left.numQubits).rewritePreimages
      (fun qubitIndex _ => right.preimage (left.preimageXView qubitIndex))
      (fun qubitIndex _ => right.preimage (left.preimageZView qubitIndex))
      (List.range left.numQubits))
  else none

/-- The inverse, whose preimages are the columns that hold the images. -/
def inverse (C : CliffordUnitaryModPauli) : CliffordUnitaryModPauli :=
  (identity C.numQubits).rewritePreimages
    (fun qubitIndex _ => C.xImageView qubitIndex)
    (fun qubitIndex _ => C.zImageView qubitIndex)
    (List.range C.numQubits)

/-- The tensor product. -/
def tensor (left right : CliffordUnitaryModPauli) : CliffordUnitaryModPauli :=
  let lhsNumQubits := left.numQubits
  let rhsNumQubits := right.numQubits
  let result := (zero (lhsNumQubits + rhsNumQubits)).rewritePreimages
    (fun qubitId p => p.assignWithOffset (left.preimageXView qubitId) 0 lhsNumQubits)
    (fun qubitId p => p.assignWithOffset (left.preimageZView qubitId) 0 lhsNumQubits)
    (List.range lhsNumQubits)
  result.rewritePreimages
    (fun qubitId p =>
      p.assignWithOffset (right.preimageXView (qubitId - lhsNumQubits)) lhsNumQubits rhsNumQubits)
    (fun qubitId p =>
      p.assignWithOffset (right.preimageZView (qubitId - lhsNumQubits)) lhsNumQubits rhsNumQubits)
    ((List.range rhsNumQubits).map (lhsNumQubits + ·))

/-- The tensor product with the identity on some more qubits. -/
def cliffordTensoredWithIdentity (left : CliffordUnitaryModPauli) (identityQubitCount : ℕ) :
    CliffordUnitaryModPauli :=
  let lhsNumQubits := left.numQubits
  (identity (lhsNumQubits + identityQubitCount)).rewritePreimages
    (fun qubitId p => p.assignWithOffset (left.preimageXView qubitId) 0 lhsNumQubits)
    (fun qubitId p => p.assignWithOffset (left.preimageZView qubitId) 0 lhsNumQubits)
    (List.range lhsNumQubits)

/-- Drop qubits on which the tableau acts trivially; `none` is a failed assertion. -/
def shrinkClifford (value : CliffordUnitaryModPauli) (newQubitCount : ℕ) :
    Option CliffordUnitaryModPauli :=
  if (List.range' newQubitCount (value.numQubits - newQubitCount)).all fun qubitIndex =>
      (value.preimageXView qubitIndex).isPauliX qubitIndex &&
        (value.preimageZView qubitIndex).isPauliZ qubitIndex then
    some ((identity newQubitCount).rewritePreimages
      (fun qubitIndex _ => value.preimageXView qubitIndex)
      (fun qubitIndex _ => value.preimageZView qubitIndex)
      (List.range newQubitCount))
  else none

/-- Change the number of qubits. -/
def resize (C : CliffordUnitaryModPauli) (newQubitCount : ℕ) : Option CliffordUnitaryModPauli :=
  match compare C.numQubits newQubitCount with
  | .eq => some C
  | .lt => some (C.cliffordTensoredWithIdentity (newQubitCount - C.numQubits))
  | .gt => C.shrinkClifford newQubitCount

end CliffordUnitaryModPauli

end QdkEc
