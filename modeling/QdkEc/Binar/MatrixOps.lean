import QdkEc.Binar.BlockForms
import QdkEc.Binar.RowSpaceIntersection

/-!
# Programs of matrix operations

This module models the remaining public operations of `AlignedBitMatrix` and the
programs that compose constructors and operations.  A program that runs without a
failed assertion ends in a matrix whose stored rows are exactly its logical rows,
in some order.
-/

namespace QdkEc

open Option List

namespace AlignedBitMatrix

/-- Toggle the bit at a row and a column. -/
def negate (m : AlignedBitMatrix) (i j : ℕ) : AlignedBitMatrix :=
  m.setRow i (Bits.unit j + m.row i)

/-- The number of bits that the words of a row hold. -/
def capacity (m : AlignedBitMatrix) : ℕ :=
  rowstrideOf m.columnCount * blockBitLen

/-- Exchange the bits of two columns in one row. -/
def swapColumnBits (a b : ℕ) (m : AlignedBitMatrix) (rowIndex : ℕ) : AlignedBitMatrix :=
  let leftBit := m.get rowIndex a
  let rightBit := m.get rowIndex b
  (m.set rowIndex a rightBit).set rowIndex b leftBit

/-- Exchange two columns. -/
def swapColumns (m : AlignedBitMatrix) (a b : ℕ) : AlignedBitMatrix :=
  (List.range m.rowCount).foldl (swapColumnBits a b) m

/-- Reorder the pointers of the first rows by a permutation of their indices. -/
def permuteRows (m : AlignedBitMatrix) (permutation : List ℕ) : Option AlignedBitMatrix :=
  if h : permutation.Perm (List.range permutation.length) ∧ permutation.length ≤ m.rowCount then
    some {
      blocks := m.blocks
      rows := permutation.map (fun k => m.rows.getD k 0) ++ m.rows.drop permutation.length
      columnCount := m.columnCount
      rows_nodup := by
        have hmap : (permutation.map fun k => m.rows.getD k 0).Perm
            (m.rows.take permutation.length) := by
          refine (h.1.map _).trans (List.Perm.of_eq ?_)
          refine ext_getElem (by simpa [rowCount] using h.2) fun i hi _ => ?_
          simp only [length_map, length_range] at hi
          have hlt : i < m.rows.length := hi.trans_le h.2
          simp [hlt]
        rw [(hmap.append_right _).nodup_iff, take_append_drop]
        exact m.rows_nodup
      rows_lt := by
        intro r hr
        rcases mem_append.mp hr with hr | hr
        · obtain ⟨k, hk, rfl⟩ := mem_map.mp hr
          have hlt : k < m.rows.length := (mem_range.mp (h.1.mem_iff.mp hk)).trans_le h.2
          rw [getD_eq_getElem _ _ hlt]
          exact m.rows_lt _ (getElem_mem hlt)
        · exact m.rows_lt r (mem_of_mem_drop hr) }
  else none

/-- Add the words of every row of another matrix of the same shape. -/
def addAssign (m other : AlignedBitMatrix) : AlignedBitMatrix :=
  (List.range m.rowCount).foldl (fun m index => m.setRow index (m.row index + other.row index)) m

/-- Intersect the words of every row with those of another matrix of the same shape. -/
def bitandAssign (m other : AlignedBitMatrix) : AlignedBitMatrix :=
  (List.range m.rowCount).foldl
    (fun m index => m.setRow index (Bits.inter (m.row index) (other.row index))) m

/-- The matrix whose entries are listed row by row. -/
def fromIter (rows : List (List Bool)) (columnCount : ℕ) : AlignedBitMatrix :=
  fromBlocks (rows.map fun row =>
    Bits.fromIndices ((List.range columnCount).filter fun j => row.getD j false)) columnCount

/-- Every copied bit has a place in the words of the new matrix. -/
def ResizeFits (m : AlignedBitMatrix) (newRows newCols : ℕ) : Prop :=
  m.rowCount = 0 ∨ m.columnCount = 0 ∨
    (m.rowCount ≤ newRows ∧ m.columnCount ≤ rowstrideOf newCols * blockBitLen)

instance (m : AlignedBitMatrix) (newRows newCols : ℕ) : Decidable (m.ResizeFits newRows newCols) :=
  inferInstanceAs (Decidable (_ ∨ _ ∨ _))

def StoresRows (m : AlignedBitMatrix) : Prop :=
  m.blocks.length = m.rowCount

section StoresRows

variable {m : AlignedBitMatrix}

theorem storesRows_fromBlocks (blocks : List Bits) (columnCount : ℕ) :
    (fromBlocks blocks columnCount).StoresRows :=
  (rowCount_fromBlocks blocks columnCount).symm

@[simp]
theorem length_blocks_setRow (m : AlignedBitMatrix) (i : ℕ) (b : Bits) :
    (m.setRow i b).blocks.length = m.blocks.length := by
  unfold setRow
  dsimp only
  split <;> simp

theorem StoresRows.setRow (h : m.StoresRows) (i : ℕ) (b : Bits) : (m.setRow i b).StoresRows :=
  (length_blocks_setRow m i b).trans h

theorem StoresRows.swapRows (h : m.StoresRows) (a b : ℕ) : (m.swapRows a b).StoresRows :=
  h.trans (rowCount_swapRows m a b).symm

theorem permuteRows_spec {m' : AlignedBitMatrix} {permutation : List ℕ}
    (h : m.permuteRows permutation = some m') :
    m'.blocks = m.blocks ∧ m'.columnCount = m.columnCount ∧ m'.rowCount = m.rowCount := by
  unfold permuteRows at h
  split_ifs at h with hperm
  obtain rfl := some_inj.mp h
  refine ⟨rfl, rfl, ?_⟩
  have hle : permutation.length ≤ m.rows.length := hperm.2
  simp only [rowCount, length_append, length_map, length_drop]
  omega

theorem StoresRows.rows_perm (h : m.StoresRows) : m.rows.Perm (List.range m.blocks.length) := by
  refine (subperm_of_subset m.rows_nodup fun r hr => ?_).perm_of_length_le ?_
  · exact mem_range.mpr (m.rows_lt r hr)
  · rw [length_range, h]
    exact le_rfl

theorem row_mem_blocks (m : AlignedBitMatrix) (i : ℕ) : m.row i ∈ m.blocks ∨ m.row i = 0 := by
  rcases Nat.lt_or_ge i m.rowCount with hi | hi
  · have hlt : m.rows[i] < m.blocks.length := m.rows_lt _ (getElem_mem hi)
    left
    rw [row, getElem?_eq_getElem hi]
    dsimp only
    rw [getD_eq_getElem _ _ hlt]
    exact getElem_mem hlt
  · exact Or.inr (row_of_le hi)

end StoresRows

section Writes

variable {P : AlignedBitMatrix → Prop} {m : AlignedBitMatrix}

theorem echelonize_induction (hadd : ∀ m i source start, P m →
      P (m.setRow i (m.row i + (Bits.shiftDown start (m.row source)).shiftUp start)))
    (hswap : ∀ m a b, P m → P (m.swapRows a b)) (hm : P m) : P m.echelonize.1 := by
  have hreduce : ∀ source m, P m → P (m.reduce source) := by
    intro source m hm
    refine List.foldlRecOn _ _ hm fun m' hm' rowIndex _ => ?_
    split_ifs
    · exact hadd _ _ _ _ hm'
    · exact hm'
  have hloop : ∀ remaining rowIndex pivot state, P state.1 →
      P (echelonizeFrom remaining rowIndex pivot state).1 := by
    intro remaining
    induction remaining with
    | zero => exact fun _ _ _ h => h
    | succ remaining ih =>
      rintro rowIndex pivot ⟨m, rankProfile⟩ h
      rw [echelonizeFrom]
      split_ifs
      · exact h
      · exact ih _ _ _ (hreduce _ _ (hswap _ _ _ h))
  exact hloop _ _ _ _ hm

end Writes

end AlignedBitMatrix

/-- A program of public constructors and operations of matrices. -/
inductive MatrixProgram where
  | zeros (rowCount columnCount : ℕ)
  | ones (rowCount columnCount : ℕ)
  | identity (dimension : ℕ)
  | fromIter (rows : List (List Bool)) (columnCount : ℕ)
  | resize (m : MatrixProgram) (newRows newCols : ℕ)
  | set (m : MatrixProgram) (row column : ℕ) (value : Bool)
  | negate (m : MatrixProgram) (row column : ℕ)
  | rowAssignIndex (m : MatrixProgram) (row index : ℕ) (value : Bool)
  | rowNegateIndex (m : MatrixProgram) (row index : ℕ)
  | swapRows (m : MatrixProgram) (left right : ℕ)
  | permuteRows (m : MatrixProgram) (permutation : List ℕ)
  | swapColumns (m : MatrixProgram) (left right : ℕ)
  | addIntoRow (m : MatrixProgram) (toIndex fromIndex : ℕ)
  | addAssign (m other : MatrixProgram)
  | bitandAssign (m other : MatrixProgram)
  | transposed (m : MatrixProgram)
  | dot (m rhs : MatrixProgram)
  | submatrix (m : MatrixProgram) (rows columns : List ℕ)
  | echelonize (m : MatrixProgram)

namespace MatrixProgram

open AlignedBitMatrix

/-- Run a program; `none` is a failed assertion or an index out of range. -/
def run : MatrixProgram → Option AlignedBitMatrix
  | zeros rowCount columnCount => some (AlignedBitMatrix.zeros rowCount columnCount)
  | ones rowCount columnCount => some (AlignedBitMatrix.ones rowCount columnCount)
  | identity dimension => some (AlignedBitMatrix.identity dimension)
  | fromIter rows columnCount => some (AlignedBitMatrix.fromIter rows columnCount)
  | resize m newRows newCols => do
      let m ← m.run
      if (newRows = m.rowCount ∧ newCols = m.columnCount) ∨ m.ResizeFits newRows newCols then
        some (m.resize newRows newCols)
      else none
  | set m row column value => do
      let m ← m.run
      if row < m.rowCount ∧ column < m.columnCount then some (m.set row column value) else none
  | negate m row column => do
      let m ← m.run
      if row < m.rowCount ∧ column < m.columnCount then some (m.negate row column) else none
  | rowAssignIndex m row index value => do
      let m ← m.run
      if row < m.rowCount ∧ index < m.capacity then some (m.set row index value) else none
  | rowNegateIndex m row index => do
      let m ← m.run
      if row < m.rowCount ∧ index < m.capacity then some (m.negate row index) else none
  | swapRows m left right => do
      let m ← m.run
      if left < m.rowCount ∧ right < m.rowCount then some (m.swapRows left right) else none
  | permuteRows m permutation => do
      let m ← m.run
      m.permuteRows permutation
  | swapColumns m left right => do
      let m ← m.run
      if m.rowCount = 0 ∨ left < m.columnCount ∧ right < m.columnCount then
        some (m.swapColumns left right)
      else none
  | addIntoRow m toIndex fromIndex => do
      let m ← m.run
      if toIndex < m.rowCount ∧ fromIndex < m.rowCount then
        some (m.addIntoRow toIndex fromIndex)
      else none
  | addAssign m other => do
      let m ← m.run
      let other ← other.run
      if m.rowCount = other.rowCount ∧ m.columnCount = other.columnCount then
        some (m.addAssign other)
      else none
  | bitandAssign m other => do
      let m ← m.run
      let other ← other.run
      if m.rowCount = other.rowCount ∧ m.columnCount = other.columnCount then
        some (m.bitandAssign other)
      else none
  | transposed m => do
      let m ← m.run
      some m.transposed
  | dot m rhs => do
      let m ← m.run
      let rhs ← rhs.run
      if m.columnCount = rhs.rowCount then some (m.dot rhs) else none
  | submatrix m rows columns => do
      let m ← m.run
      if rows = [] ∨ columns = [] ∨
          ((∀ i ∈ rows, i < m.rowCount) ∧ ∀ j ∈ columns, j < m.columnCount) then
        some (m.submatrix rows columns)
      else none
  | echelonize m => do
      let m ← m.run
      some m.echelonize.1

theorem storesRows_run {e : MatrixProgram} {m : AlignedBitMatrix} (h : e.run = some m) :
    m.StoresRows := by
  induction e generalizing m with
  | zeros | ones | fromIter =>
    obtain rfl := some_inj.mp h
    exact storesRows_fromBlocks _ _
  | identity dimension =>
    obtain rfl := some_inj.mp h
    exact List.foldlRecOn _ _ (storesRows_fromBlocks _ _) fun m hm i _ => hm.setRow _ _
  | resize e newRows newCols ih =>
    obtain ⟨a, ha, h⟩ := bind_eq_some_iff.mp h
    split_ifs at h with hfits
    obtain rfl := some_inj.mp h
    unfold AlignedBitMatrix.resize
    split_ifs
    · exact ih ha
    · refine List.foldlRecOn _ _ (storesRows_fromBlocks _ _) fun m hm r _ => ?_
      exact List.foldlRecOn _ _ hm fun m hm c _ => hm.setRow _ _
  | set e row column value ih | negate e row column ih | rowAssignIndex e row index value ih
  | rowNegateIndex e row index ih | addIntoRow e toIndex fromIndex ih =>
    obtain ⟨a, ha, h⟩ := bind_eq_some_iff.mp h
    split_ifs at h
    obtain rfl := some_inj.mp h
    exact (ih ha).setRow _ _
  | swapRows e left right ih =>
    obtain ⟨a, ha, h⟩ := bind_eq_some_iff.mp h
    split_ifs at h
    obtain rfl := some_inj.mp h
    exact (ih ha).swapRows _ _
  | permuteRows e permutation ih =>
    obtain ⟨a, ha, h⟩ := bind_eq_some_iff.mp h
    obtain ⟨hblocks, _, hrows⟩ := permuteRows_spec h
    have hstores : a.blocks.length = a.rowCount := ih ha
    rw [StoresRows, hblocks, hrows, hstores]
  | swapColumns e left right ih =>
    obtain ⟨a, ha, h⟩ := bind_eq_some_iff.mp h
    split_ifs at h
    obtain rfl := some_inj.mp h
    exact List.foldlRecOn _ _ (ih ha) fun m hm r _ => (hm.setRow _ _).setRow _ _
  | addAssign e other ih _ | bitandAssign e other ih _ =>
    obtain ⟨a, ha, h⟩ := bind_eq_some_iff.mp h
    obtain ⟨b, _, h⟩ := bind_eq_some_iff.mp h
    split_ifs at h
    obtain rfl := some_inj.mp h
    exact List.foldlRecOn _ _ (ih ha) fun m hm r _ => hm.setRow _ _
  | transposed e ih =>
    obtain ⟨a, _, h⟩ := bind_eq_some_iff.mp h
    obtain rfl := some_inj.mp h
    exact storesRows_fromBlocks _ _
  | dot e rhs _ _ =>
    obtain ⟨a, _, h⟩ := bind_eq_some_iff.mp h
    obtain ⟨b, _, h⟩ := bind_eq_some_iff.mp h
    split_ifs at h
    obtain rfl := some_inj.mp h
    exact storesRows_fromBlocks _ _
  | submatrix e rows columns _ =>
    obtain ⟨a, _, h⟩ := bind_eq_some_iff.mp h
    split_ifs at h
    obtain rfl := some_inj.mp h
    exact storesRows_fromBlocks _ _
  | echelonize e ih =>
    obtain ⟨a, ha, h⟩ := bind_eq_some_iff.mp h
    obtain rfl := some_inj.mp h
    exact echelonize_induction (fun m i source start hm => hm.setRow i _)
      (fun m a b hm => hm.swapRows a b) (ih ha)

end MatrixProgram

end QdkEc
