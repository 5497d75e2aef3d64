import QdkEc.Binar.MatrixOps
import QdkEc.Lib.BoolLists

/-!
# Bit matrices of the runtime

This module models the conversion of sparse matrices, the modifiers of matrices and
the products and sums of bit vectors that the runtime uses.  A bit vector is the
list of its bits.
-/

namespace QdkEc

/-- Add a bit vector to another one of the same length; `none` is a failed assertion. -/
def xorAssign (v other : List Bool) : Option (List Bool) :=
  if v.length = other.length then some (List.zipWith xor v other) else none

theorem xorAssign_map_range (n : ℕ) (f g : ℕ → Bool) :
    xorAssign ((List.range n).map f) ((List.range n).map g) =
      some ((List.range n).map fun i => f i ^^ g i) := by
  rw [xorAssign, if_pos (by simp)]
  refine congrArg some (List.ext_getElem (by simp) fun i hi hi' => ?_)
  simp

theorem eq_map_range {n : ℕ} {l : List Bool} (hl : l.length = n) :
    l = (List.range n).map fun i => l.getD i false := by
  refine List.ext_getElem (by simp [hl]) fun i hi hi' => ?_
  rw [List.getElem_map, List.getElem_range, List.getD_eq_getElem _ _ hi]

namespace AlignedBitMatrix

/-- One entry of the product of a matrix and a bit vector. -/
def entry (m : AlignedBitMatrix) (v : List Bool) (i : ℕ) : Bool :=
  Bits.dot (m.row i) (Bits.ofBools v)

/-- The product of a matrix and a bit vector; `none` is a failed assertion. -/
def mul (m : AlignedBitMatrix) (v : List Bool) : Option (List Bool) :=
  if v.length = m.columnCount then some ((List.range m.rowCount).map (m.entry v)) else none

theorem mul_eq {m : AlignedBitMatrix} {v : List Bool} (hv : v.length = m.columnCount) :
    m.mul v = some ((List.range m.rowCount).map (m.entry v)) :=
  if_pos hv

end AlignedBitMatrix

/-- A matrix by the positions of its ones. -/
structure SparseBitMatrix where
  rows : ℕ
  cols : ℕ
  i : List ℕ
  j : List ℕ

def sparseToDense (sparse : SparseBitMatrix) : Option AlignedBitMatrix :=
  (sparse.i.zip sparse.j).foldlM
    (fun dense position =>
      if position.1 < dense.rowCount ∧ position.2 < dense.columnCount then
        some (dense.set position.1 position.2 true)
      else none)
    (AlignedBitMatrix.zeros sparse.rows sparse.cols)

/-- The dense matrix of a sparse one; a missing one has no rows and no columns. -/
def optionalSparseToDense : Option SparseBitMatrix → Option AlignedBitMatrix
  | some sparse => sparseToDense sparse
  | none => some (AlignedBitMatrix.zeros 0 0)

/-- A change of a matrix. -/
structure BitMatrixModifier where
  toggle : Option SparseBitMatrix
  overwrite : Option SparseBitMatrix

/-- Add a matrix, then replace by another one; `none` is a failed assertion. -/
def applyModifier (matrix : AlignedBitMatrix) (modifier : BitMatrixModifier) :
    Option AlignedBitMatrix := do
  let matrix ← match modifier.toggle with
    | some toggle => do
        let toggleDense ← sparseToDense toggle
        if matrix.rowCount = toggleDense.rowCount ∧
            matrix.columnCount = toggleDense.columnCount then
          some (matrix.addAssign toggleDense)
        else none
    | none => some matrix
  match modifier.overwrite with
  | some overwrite => sparseToDense overwrite
  | none => some matrix

end QdkEc
