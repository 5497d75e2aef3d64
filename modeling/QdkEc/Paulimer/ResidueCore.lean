import QdkEc.Binar.BlockForms
import QdkEc.Binar.RowSpaceIntersection
import QdkEc.Paulimer.CongruenceTriangularization

/-!
# Residue cores of symplectic actions

This module models the residue matrix of a symplectic action matrix, the row
reduction that records its transform, and the core matrix of both.  The rows of the
reduced matrix are a basis of the residue, the transform names vectors that the action
moves by them, and the core is the form that pairs the one with the other.
-/

namespace QdkEc

open Bits List Nat

namespace AlignedBitMatrix

/-- Set the entries of a row at the columns where a predicate holds. -/
def setWhere (m : AlignedBitMatrix) (row columns : ℕ) (p : ℕ → Bool) : AlignedBitMatrix :=
  (List.range columns).foldl (fun m column => if p column then m.set row column true else m) m

/-- A matrix of the same shape with the entries where a predicate holds set. -/
structure Filled (m filled : AlignedBitMatrix) (p : ℕ → ℕ → Bool) : Prop where
  rowCount_eq : filled.rowCount = m.rowCount
  columnCount_eq : filled.columnCount = m.columnCount
  get_eq : ∀ i j, filled.get i j = (m.get i j || p i j)

namespace Filled

variable {m filled : AlignedBitMatrix} {p q : ℕ → ℕ → Bool}

theorem refl (m : AlignedBitMatrix) : Filled m m fun _ _ => false where
  rowCount_eq := rfl
  columnCount_eq := rfl
  get_eq _ _ := (Bool.or_false _).symm

theorem trans {last : AlignedBitMatrix} (h : Filled m filled p) (hlast : Filled filled last q) :
    Filled m last fun i j => p i j || q i j where
  rowCount_eq := hlast.rowCount_eq.trans h.rowCount_eq
  columnCount_eq := hlast.columnCount_eq.trans h.columnCount_eq
  get_eq i j := by rw [hlast.get_eq, h.get_eq, Bool.or_assoc]

theorem congr (h : Filled m filled p) (hpq : ∀ i j, p i j = q i j) : Filled m filled q where
  rowCount_eq := h.rowCount_eq
  columnCount_eq := h.columnCount_eq
  get_eq i j := by rw [h.get_eq, hpq]

theorem setIf {row : ℕ} (hrow : row < m.rowCount) (column : ℕ) (bit : Bool) :
    Filled m (if bit then m.set row column true else m) fun i j =>
      bit && (decide (i = row) && decide (j = column)) := by
  cases bit with
  | false => exact (refl m).congr fun _ _ => rfl
  | true =>
    refine ⟨rowCount_set m row column true, columnCount_set m row column true, fun i j => ?_⟩
    rw [if_pos rfl, get_set hrow, Bool.true_and, ← Bool.decide_and]
    by_cases hij : i = row ∧ j = column
    · rw [if_pos hij, decide_eq_true hij, Bool.or_true]
    · rw [if_neg hij, decide_eq_false hij, Bool.or_false]

/-- A loop whose passes set entries sets the entries of all passes. -/
theorem foldl {α : Type*} {step : AlignedBitMatrix → α → AlignedBitMatrix} {p : α → ℕ → ℕ → Bool}
    {l : List α} (hstep : ∀ filled : AlignedBitMatrix, filled.rowCount = m.rowCount → ∀ a ∈ l,
      Filled filled (step filled a) (p a)) :
    Filled m (l.foldl step m) fun i j => l.any fun a => p a i j := by
  induction l generalizing m with
  | nil => exact refl m
  | cons a l ih =>
    have hhead := hstep m rfl a mem_cons_self
    have htail := ih (m := step m a) fun filled hfilled b hb =>
      hstep filled (hfilled.trans hhead.rowCount_eq) b (mem_cons_of_mem a hb)
    exact (hhead.trans htail).congr fun i j => (any_cons (f := fun a => p a i j)).symm

theorem index_row {r c : ℕ} (h : Filled (zeros r c) filled p) (i j : ℕ) :
    (filled.row i).index j = p i j := by
  have hget := h.get_eq i j
  rwa [get, get, row_zeros, index_zero, Bool.false_or] at hget

end Filled

theorem any_range_eq (n i : ℕ) (p : ℕ → Bool) :
    ((List.range n).any fun k => p k && decide (i = k)) = (decide (i < n) && p i) := by
  rw [Bool.eq_iff_iff, any_eq_true, Bool.and_eq_true, decide_eq_true_iff]
  constructor
  · rintro ⟨k, hk, hpk⟩
    rw [Bool.and_eq_true, decide_eq_true_iff] at hpk
    obtain ⟨hp, rfl⟩ := hpk
    exact ⟨mem_range.mp hk, hp⟩
  · rintro ⟨hi, hp⟩
    exact ⟨i, mem_range.mpr hi, by rw [hp, decide_eq_true rfl, Bool.and_self]⟩

theorem Filled.foldl_range {m : AlignedBitMatrix}
    {step : AlignedBitMatrix → ℕ → AlignedBitMatrix} {p : ℕ → ℕ → Bool} {n : ℕ}
    (hn : n ≤ m.rowCount) (hstep : ∀ (filled : AlignedBitMatrix) (row : ℕ), row < filled.rowCount →
      Filled filled (step filled row) fun i j => p row j && decide (i = row)) :
    Filled m ((List.range n).foldl step m) fun i j => decide (i < n) && p i j := by
  refine (Filled.foldl fun filled hfilled row hrow => hstep filled row ?_).congr fun i j =>
    any_range_eq n i fun row => p row j
  have hlt := mem_range.mp hrow
  omega

theorem filled_setWhere {m : AlignedBitMatrix} {row : ℕ} (hrow : row < m.rowCount) (columns : ℕ)
    (p : ℕ → Bool) : Filled m (m.setWhere row columns p) fun i j =>
      (decide (j < columns) && p j) && decide (i = row) := by
  refine (Filled.foldl fun filled hfilled column _ =>
    Filled.setIf (hrow.trans_eq hfilled.symm) column (p column)).congr fun i j => ?_
  rw [← any_range_eq columns j p]
  cases hi : decide (i = row) with
  | false => simp
  | true => simp

end AlignedBitMatrix

namespace TransvectionExact

open AlignedBitMatrix

/-- The position of a row in the other half. -/
def swappedIndex (qubitCount row : ℕ) : ℕ :=
  if row < qubitCount then row + qubitCount else row - qubitCount

/-- The sum of the identity and the action, with the halves of the rows exchanged. -/
def residueMatrix (action : AlignedBitMatrix) (qubitCount : ℕ) : AlignedBitMatrix :=
  let dimension := 2 * qubitCount
  (List.range dimension).foldl
    (fun residue row =>
      let swapped := swappedIndex qubitCount row
      residue.setWhere row dimension fun column =>
        action.get swapped column ^^ decide (swapped = column))
    (zeros dimension dimension)

/-- A matrix with the identity behind its columns. -/
def augmentedMatrix (matrix : AlignedBitMatrix) : AlignedBitMatrix :=
  let rows := matrix.rowCount
  let columns := matrix.columnCount
  (List.range rows).foldl
    (fun augmented row =>
      (augmented.setWhere row columns (matrix.get row)).set row (columns + row) true)
    (zeros rows (columns + rows))

def pivotColumn (state : AlignedBitMatrix × ℕ) (column : ℕ) : AlignedBitMatrix × ℕ :=
  let (augmented, pivotRow) := state
  let rows := augmented.rowCount
  match (List.range' pivotRow (rows - pivotRow)).find? fun row => augmented.get row column with
  | none => (augmented, pivotRow)
  | some selected =>
    ((List.range rows).foldl
      (fun augmented row =>
        if row ≠ pivotRow && augmented.get row column then augmented.addIntoRow row pivotRow
        else augmented)
      (augmented.swapRows pivotRow selected), pivotRow + 1)

/-- The nonzero rows of the reduced echelon form and the transform that yields them. -/
def rowReduceWithTransform (matrix : AlignedBitMatrix) : AlignedBitMatrix × AlignedBitMatrix :=
  let rows := matrix.rowCount
  let columns := matrix.columnCount
  let (augmented, rank) := (List.range columns).foldl pivotColumn (augmentedMatrix matrix, 0)
  ((List.range rank).foldl
      (fun basis row => basis.setWhere row columns (augmented.get row)) (zeros rank columns),
    (List.range rank).foldl
      (fun transform row =>
        transform.setWhere row rows fun column => augmented.get row (columns + column))
      (zeros rank rows))

def residueCore (action : AlignedBitMatrix) (qubitCount : ℕ) :
    AlignedBitMatrix × ℕ × AlignedBitMatrix :=
  let residue := residueMatrix action qubitCount
  let (basis, transform) := rowReduceWithTransform residue
  (basis, basis.rowCount, basis.dot transform.transposed)

theorem row_foldl_addIntoRow {m : AlignedBitMatrix} (pivotRow column : ℕ) {rows : ℕ}
    (hrows : rows ≤ m.rowCount) :
    let cleared := (List.range rows).foldl
      (fun augmented row =>
        if row ≠ pivotRow && augmented.get row column then augmented.addIntoRow row pivotRow
        else augmented) m
    (cleared.rowCount = m.rowCount ∧ cleared.columnCount = m.columnCount) ∧
      ∀ i, cleared.row i =
        if i < rows ∧ i ≠ pivotRow ∧ m.get i column = true then m.row i + m.row pivotRow
        else m.row i := by
  induction rows with
  | zero =>
    refine ⟨⟨rfl, rfl⟩, fun i => ?_⟩
    rfl
  | succ rows ih =>
    obtain ⟨⟨hcount, hcolumns⟩, hrow⟩ := ih (by omega)
    simp only [range_succ, foldl_append, foldl_cons, foldl_nil]
    generalize (List.range rows).foldl _ m = cleared at hcount hcolumns hrow ⊢
    have hself : cleared.row rows = m.row rows := by rw [hrow, if_neg fun h => lt_irrefl rows h.1]
    have hpivotRow : cleared.row pivotRow = m.row pivotRow := by
      rw [hrow, if_neg fun h => h.2.1 rfl]
    have hget : cleared.get rows column = m.get rows column :=
      congrArg (index · column) hself
    rw [hget]
    by_cases hadd : rows ≠ pivotRow ∧ m.get rows column = true
    · rw [if_pos (by simpa using hadd)]
      refine ⟨⟨by rw [rowCount_addIntoRow, hcount], by rw [columnCount_addIntoRow, hcolumns]⟩,
        fun i => ?_⟩
      rw [row_addIntoRow (by omega), hself, hpivotRow, hrow]
      by_cases hi : i = rows
      · subst hi
        rw [if_pos rfl, if_pos ⟨lt_succ_self i, hadd⟩]
      · have hlt : i < rows + 1 ↔ i < rows := by omega
        simp only [if_neg hi, hlt]
    · rw [if_neg (by simpa using hadd)]
      refine ⟨⟨hcount, hcolumns⟩, fun i => ?_⟩
      rw [hrow]
      by_cases hi : i = rows
      · subst hi
        rw [if_neg fun h => lt_irrefl i h.1, if_neg fun h => hadd h.2]
      · have hlt : i < rows + 1 ↔ i < rows := by omega
        simp only [hlt]

/-- The rows of the loop in reduced form before a column, each of them a combination of the rows of
the matrix that the part behind its columns names. -/
structure ReducesRows (matrix : AlignedBitMatrix) (column : ℕ) (state : AlignedBitMatrix × ℕ)
    (pivots : List ℕ) :
    Prop where
  length_pivots : pivots.length = state.2
  le_rowCount : state.2 ≤ state.1.rowCount
  rowCount_eq : state.1.rowCount = matrix.rowCount
  reduced : Bits.ReducedBefore (fun i => Bits.low matrix.columnCount (state.1.row i)) pivots column
  combine_eq : ∀ i, Bits.low matrix.columnCount (state.1.row i) =
    Bits.combine matrix.entries (Bits.shiftDown matrix.columnCount (state.1.row i))
  below : ∀ i, (Bits.shiftDown matrix.columnCount (state.1.row i)).Below matrix.rowCount
  rowSpace_eq :
    Bits.rowSpace matrix.rowCount (fun i => Bits.low matrix.columnCount (state.1.row i)) =
      Bits.rowSpace matrix.rowCount matrix.entries

variable (matrix : AlignedBitMatrix)

theorem filled_augmentedMatrix :
    Filled (zeros matrix.rowCount (matrix.columnCount + matrix.rowCount)) (augmentedMatrix matrix)
      fun i j => decide (i < matrix.rowCount) &&
        (decide (j < matrix.columnCount) && matrix.get i j ||
          decide (j = matrix.columnCount + i)) := by
  refine Filled.foldl_range (by rw [rowCount_zeros]) fun filled row hrow => ?_
  have hfilled := filled_setWhere hrow matrix.columnCount (matrix.get row)
  refine (hfilled.trans (Filled.setIf (hrow.trans_eq hfilled.rowCount_eq.symm)
    (matrix.columnCount + row) true)).congr fun i j => ?_
  cases decide (i = row) with
  | false => simp
  | true => simp

theorem reducesRows_augmentedMatrix :
    ReducesRows matrix 0 (augmentedMatrix matrix, 0) [] := by
  have hfilled := filled_augmentedMatrix matrix
  have hlow : ∀ i, Bits.low matrix.columnCount ((augmentedMatrix matrix).row i) =
      matrix.entries i := by
    intro i
    refine ext_index fun j => ?_
    rw [index_low, hfilled.index_row, entries, index_low]
    rcases lt_or_ge i matrix.rowCount with hi | hi
    · by_cases hj : j < matrix.columnCount
      · have hne : j ≠ matrix.columnCount + i := by omega
        simp [hi, hj, hne, AlignedBitMatrix.get]
      · simp [hj]
    · rw [row_of_le hi, decide_eq_false (by omega : ¬ i < matrix.rowCount), index_zero]
      simp
  have hshift : ∀ i, shiftDown matrix.columnCount ((augmentedMatrix matrix).row i) =
      if i < matrix.rowCount then unit i else 0 := by
    intro i
    refine ext_index fun j => ?_
    rw [index_shiftDown, hfilled.index_row]
    split_ifs with hi
    · simp [hi, eq_comm]
    · simp [hi]
  refine ⟨rfl, zero_le _, ?_, reducedBefore_zero _, fun i => ?_, fun i => ?_, ?_⟩
  · rw [hfilled.rowCount_eq, rowCount_zeros]
  · rw [hlow, hshift]
    split_ifs with hi
    · rw [combine_unit]
    · rw [combine_zero, entries, row_of_le (by omega), low_eq_self (below_zero _)]
  · rw [hshift]
    split_ifs with hi
    · exact below_unit.mpr hi
    · exact below_zero _
  · rw [funext hlow]

/-- One column of the loop keeps the invariant. -/
theorem ReducesRows.pivotColumn {matrix : AlignedBitMatrix} {column : ℕ}
    {state : AlignedBitMatrix × ℕ} {pivots : List ℕ} (h : ReducesRows matrix column state pivots)
    (hcolumn : column < matrix.columnCount) :
    ∃ pivots', ReducesRows matrix (column + 1) (pivotColumn state column) pivots' := by
  obtain ⟨augmented, pivotRow⟩ := state
  have hpivots : pivots.length = pivotRow := h.length_pivots
  have hcount : augmented.rowCount = matrix.rowCount := h.rowCount_eq
  have hbit : ∀ i, (Bits.low matrix.columnCount (augmented.row i)).index column =
      augmented.get i column := by
    intro i
    rw [index_low, decide_eq_true hcolumn, Bool.true_and, AlignedBitMatrix.get]
  cases hfind : (List.range' pivotRow (augmented.rowCount - pivotRow)).find? fun row =>
      augmented.get row column with
  | none =>
    have hstep : TransvectionExact.pivotColumn (augmented, pivotRow) column =
        (augmented, pivotRow) := by
      simp only [TransvectionExact.pivotColumn, hfind]
    rw [hstep]
    refine ⟨pivots, h.length_pivots, h.le_rowCount, h.rowCount_eq, h.reduced.skip fun i hi => ?_,
      h.combine_eq, h.below, h.rowSpace_eq⟩
    rw [hbit]
    rcases lt_or_ge i augmented.rowCount with hlt | hge
    · rw [find?_eq_none] at hfind
      simpa using hfind i (mem_range'_sub.mpr ⟨hpivots ▸ hi, hlt⟩)
    · rw [AlignedBitMatrix.get, row_of_le hge, index_zero]
  | some selected =>
    obtain ⟨hle, hlt⟩ := mem_range'_sub.mp (mem_of_find?_eq_some hfind)
    have hone : augmented.get selected column = true :=
      find?_some (p := fun row => augmented.get row column) hfind
    have hpivot : pivotRow < augmented.rowCount := lt_of_le_of_lt hle hlt
    set swapped := augmented.swapRows pivotRow selected with hswapped
    have hswappedCount : swapped.rowCount = augmented.rowCount := rowCount_swapRows _ _ _
    have hswappedRow : ∀ i, swapped.row i = augmented.row (Equiv.swap pivotRow selected i) :=
      row_swapRows hpivot hlt
    obtain ⟨⟨hclearedCount, _⟩, hcleared⟩ := row_foldl_addIntoRow (m := swapped)
      pivotRow column hswappedCount.ge
    have hstep : TransvectionExact.pivotColumn (augmented, pivotRow) column =
        ((List.range augmented.rowCount).foldl
          (fun augmented row =>
            if row ≠ pivotRow && augmented.get row column then augmented.addIntoRow row pivotRow
            else augmented) swapped, pivotRow + 1) := by
      simp only [TransvectionExact.pivotColumn, hfind, hswapped]
    rw [hstep]
    generalize (List.range augmented.rowCount).foldl _ swapped = cleared at hclearedCount hcleared ⊢
    -- The rows of the result are those of one elimination step, padding and transform included.
    have hrow : ∀ i, cleared.row i = if i ≠ pivotRow ∧
        (augmented.row (Equiv.swap pivotRow selected i)).index column = true then
          augmented.row (Equiv.swap pivotRow selected i) + augmented.row selected
        else augmented.row (Equiv.swap pivotRow selected i) := by
      intro i
      rw [hcleared, hswappedRow, hswappedRow, Equiv.swap_apply_left,
        AlignedBitMatrix.get, hswappedRow]
      rcases lt_or_ge i augmented.rowCount with hi | hi
      · simp only [hi, true_and]
      · have hfixed : Equiv.swap pivotRow selected i = i :=
          Equiv.swap_apply_of_ne_of_ne (by omega) (by omega)
        rw [hfixed, row_of_le hi, if_neg fun h => by omega, if_neg fun h => by simp at h]
    have hlow : (fun i => Bits.low matrix.columnCount (cleared.row i)) =
        eliminateWith (fun i => Bits.low matrix.columnCount (augmented.row i)) pivotRow
          selected column := by
      funext i
      rw [hrow, eliminateWith, hbit, AlignedBitMatrix.get]
      split_ifs
      · exact low_add _ _ _
      · rfl
    refine ⟨pivots ++ [column], ?_, ?_, ?_, ?_, fun i => ?_, fun i => ?_, ?_⟩
    · rw [length_append, length_singleton, hpivots]
    · change pivotRow + 1 ≤ cleared.rowCount
      omega
    · exact hclearedCount.trans (hswappedCount.trans hcount)
    · rw [hlow, ← hpivots]
      exact h.reduced.eliminateWith (hpivots ▸ hle) (by rw [hbit, hone])
    · rw [hrow]
      split_ifs
      · rw [low_add, shiftDown_add, combine_add]
        exact congrArg₂ (· + ·) (h.combine_eq _) (h.combine_eq _)
      · exact h.combine_eq _
    · rw [hrow]
      split_ifs
      · rw [shiftDown_add]
        exact (h.below _).add (h.below _)
      · exact h.below _
    · rw [hlow, rowSpace_eliminateWith _ (hcount ▸ hpivot) (hcount ▸ hlt)]
      exact h.rowSpace_eq

/-- The nonzero rows of the reduced echelon form with the transform that yields them. -/
structure RowReduction (matrix basis transform : AlignedBitMatrix) (pivots : List ℕ) : Prop where
  rowCount_basis : basis.rowCount = pivots.length
  columnCount_basis : basis.columnCount = matrix.columnCount
  rowCount_transform : transform.rowCount = pivots.length
  columnCount_transform : transform.columnCount = matrix.rowCount
  reduced : Bits.Reduced basis.row pivots
  below_basis : ∀ i, (basis.row i).Below matrix.columnCount
  below_transform : ∀ i, (transform.row i).Below matrix.rowCount
  basis_eq : ∀ i, basis.row i = Bits.combine matrix.entries (transform.row i)
  rowSpace_eq : Bits.rowSpace pivots.length basis.row =
    Bits.rowSpace matrix.rowCount matrix.entries

theorem rowReduction_rowReduceWithTransform :
    ∃ pivots, RowReduction matrix (rowReduceWithTransform matrix).1
      (rowReduceWithTransform matrix).2 pivots := by
  have hloop : ∀ column, column ≤ matrix.columnCount → ∃ pivots, ReducesRows matrix column
      ((List.range column).foldl TransvectionExact.pivotColumn (augmentedMatrix matrix, 0))
      pivots := by
    intro column
    induction column with
    | zero =>
      intro _
      exact ⟨[], reducesRows_augmentedMatrix matrix⟩
    | succ column ih =>
      intro hcolumn
      obtain ⟨pivots, h⟩ := ih (by omega)
      rw [range_succ, foldl_append]
      exact h.pivotColumn (by omega)
  obtain ⟨pivots, h⟩ := hloop matrix.columnCount le_rfl
  rw [rowReduceWithTransform]
  generalize (List.range matrix.columnCount).foldl TransvectionExact.pivotColumn
    (augmentedMatrix matrix, 0) = state at h
  obtain ⟨augmented, rank⟩ := state
  obtain rfl : pivots.length = rank := h.length_pivots
  dsimp only
  have hbasis := Filled.foldl_range (m := zeros pivots.length matrix.columnCount)
    (n := pivots.length) (by rw [rowCount_zeros]) fun filled row hrow =>
      filled_setWhere hrow matrix.columnCount (augmented.get row)
  have htransform := Filled.foldl_range (m := zeros pivots.length matrix.rowCount)
    (n := pivots.length) (by rw [rowCount_zeros]) fun filled row hrow =>
      filled_setWhere hrow matrix.rowCount fun column =>
        augmented.get row (matrix.columnCount + column)
  generalize (List.range pivots.length).foldl _ (zeros pivots.length matrix.columnCount) = basis
    at hbasis ⊢
  generalize (List.range pivots.length).foldl _ (zeros pivots.length matrix.rowCount) = transform
    at htransform ⊢
  have hreduced := h.reduced.reduced fun i => below_low _ _
  have hbasisRow : basis.row = fun i => Bits.low matrix.columnCount (augmented.row i) := by
    funext i
    rcases lt_or_ge i pivots.length with hi | hi
    · refine ext_index fun j => ?_
      rw [hbasis.index_row, decide_eq_true hi, Bool.true_and, index_low]
      rfl
    · rw [hreduced.zero i hi, row_of_le (by rwa [hbasis.rowCount_eq, rowCount_zeros])]
  have htransformRow : ∀ i, transform.row i =
      if i < pivots.length then shiftDown matrix.columnCount (augmented.row i) else 0 := by
    intro i
    split_ifs with hi
    · refine ext_index fun j => ?_
      rw [htransform.index_row, decide_eq_true hi, Bool.true_and, index_shiftDown]
      by_cases hj : j < matrix.rowCount
      · rw [decide_eq_true hj, Bool.true_and]
        rfl
      · have hfalse := (h.below i).index_eq_false (ge_of_not_lt hj)
        rw [index_shiftDown] at hfalse
        rw [decide_eq_false hj, Bool.false_and, hfalse]
    · rw [row_of_le (by rw [htransform.rowCount_eq, rowCount_zeros]; omega)]
  refine ⟨pivots, ?_, ?_, ?_, ?_, ?_, fun i => ?_, fun i => ?_, fun i => ?_, ?_⟩
  · rw [hbasis.rowCount_eq, rowCount_zeros]
  · rw [hbasis.columnCount_eq, columnCount_zeros]
  · rw [htransform.rowCount_eq, rowCount_zeros]
  · rw [htransform.columnCount_eq, columnCount_zeros]
  · rw [hbasisRow]
    exact hreduced
  · rw [hbasisRow]
    exact below_low _ _
  · rw [htransformRow]
    split_ifs
    · exact h.below i
    · exact below_zero _
  · rw [htransformRow, hbasisRow]
    split_ifs with hi
    · exact h.combine_eq i
    · exact hreduced.zero i (by omega)
  · have hle : pivots.length ≤ matrix.rowCount := h.rowCount_eq ▸ h.le_rowCount
    rw [← h.rowSpace_eq, hbasisRow, hreduced.rowSpace_eq_rowSpace_length hle]

/-- A bit set with its halves exchanged. -/
def exchange (qubitCount : ℕ) (v : Bits) : Bits :=
  Bits.fromIndices ((List.range (2 * qubitCount)).filter fun i =>
    v.index (swappedIndex qubitCount i))

theorem index_exchange (n : ℕ) (v : Bits) (i : ℕ) :
    (exchange n v).index i = (decide (i < 2 * n) && v.index (swappedIndex n i)) := by
  rw [exchange, index_fromIndices, Bool.eq_iff_iff]
  simp

theorem exchange_add (n : ℕ) (u v : Bits) : exchange n (u + v) = exchange n u + exchange n v := by
  refine ext_index fun i => ?_
  simp only [index_exchange, index_add]
  cases decide (i < 2 * n) <;> rfl

theorem swappedIndex_lt {n i : ℕ} (hi : i < 2 * n) : swappedIndex n i < 2 * n := by
  unfold swappedIndex
  split_ifs <;> omega

theorem swappedIndex_swappedIndex {n i : ℕ} (hi : i < 2 * n) :
    swappedIndex n (swappedIndex n i) = i := by
  unfold swappedIndex
  split_ifs <;> omega

theorem exchange_unit (n i : ℕ) :
    exchange n (unit i) = if i < 2 * n then unit (swappedIndex n i) else 0 := by
  refine ext_index fun j => ?_
  rw [index_exchange, index_unit]
  split_ifs with hi
  · rw [index_unit, ← Bool.decide_and]
    refine decide_eq_decide.mpr ⟨?_, ?_⟩
    · rintro ⟨hj, rfl⟩
      exact swappedIndex_swappedIndex hj
    · rintro rfl
      exact ⟨swappedIndex_lt hi, (swappedIndex_swappedIndex hi).symm⟩
  · rw [index_zero, ← Bool.decide_and, decide_eq_false]
    rintro ⟨hj, rfl⟩
    exact hi (swappedIndex_lt hj)

theorem exchange_exchange (n : ℕ) (v : Bits) : exchange n (exchange n v) = Bits.low (2 * n) v := by
  refine ext_index fun i => ?_
  rw [index_exchange, index_exchange, index_low]
  by_cases hi : i < 2 * n
  · rw [decide_eq_true hi, decide_eq_true (swappedIndex_lt hi), swappedIndex_swappedIndex hi,
      Bool.true_and]
  · rw [decide_eq_false hi, Bool.false_and, Bool.false_and]

/-- Exchanging the halves is linear. -/
def exchangeMap (qubitCount : ℕ) : Bits →ₗ[ZMod 2] Bits :=
  (AddMonoidHom.mk' (exchange qubitCount) (exchange_add qubitCount)).toZModLinearMap 2

def symplecticForm (qubitCount : ℕ) : LinearMap.BilinForm (ZMod 2) Bits :=
  Transvection.formOfAdditive (fun u v => PauliVector.signBit (Bits.dot u (exchange qubitCount v)))
    (fun u v w => by rw [dot_add_left, PauliVector.signBit_xor])
    (fun u v w => by rw [exchange_add, dot_add_right, PauliVector.signBit_xor])

theorem symplecticForm_apply (n : ℕ) (u v : Bits) :
    symplecticForm n u v = PauliVector.signBit (Bits.dot u (exchange n v)) :=
  rfl

theorem dot_exchange_self (n : ℕ) (v : Bits) : Bits.dot v (exchange n v) = false := by
  induction v using unit_induction with
  | zero => exact dot_zero_left _
  | unit_add i v _ ih =>
    rw [exchange_add, dot_add_left, dot_add_right, dot_add_right, ih,
      dot_unit_left, dot_unit_left, index_exchange, index_exchange, exchange_unit,
      index_unit]
    by_cases hi : i < 2 * n
    · have hne : i ≠ swappedIndex n i := by
        unfold swappedIndex
        split_ifs <;> omega
      rw [if_pos hi, dot_unit_right, decide_eq_true hi, decide_eq_false hne]
      simp
    · rw [if_neg hi, dot_zero_right, decide_eq_false hi]
      rfl

theorem isAlt_symplecticForm (n : ℕ) : (symplecticForm n).IsAlt := by
  intro v
  rw [symplecticForm_apply, dot_exchange_self]
  rfl

theorem eq_zero_of_symplecticForm {n : ℕ} {v : Bits} (hv : v.Below (2 * n))
    (hzero : ∀ u : Bits, u.Below (2 * n) → symplecticForm n u v = 0) : v = 0 := by
  refine ext_index fun i => ?_
  rw [index_zero]
  rcases lt_or_ge i (2 * n) with hi | hi
  · have hvalue := hzero (unit (swappedIndex n i)) (below_unit.mpr (swappedIndex_lt hi))
    rw [symplecticForm_apply, PauliVector.signBit_eq_zero, dot_unit_left, index_exchange,
      swappedIndex_swappedIndex hi, decide_eq_true (swappedIndex_lt hi), Bool.true_and] at hvalue
    exact hvalue
  · exact hv.index_eq_false hi

/-- The linear map of the combinations of rows. -/
def combineMap (g : ℕ → Bits) : Bits →ₗ[ZMod 2] Bits :=
  (Bits.combineHom g).toZModLinearMap 2

theorem combineMap_apply (g : ℕ → Bits) (t : Bits) : combineMap g t = Bits.combine g t :=
  rfl

/-- The linear map of an action matrix, whose rows are the images of the units. -/
def actionMap (action : AlignedBitMatrix) : Bits →ₗ[ZMod 2] Bits :=
  combineMap action.entries

theorem actionMap_unit (action : AlignedBitMatrix) (i : ℕ) :
    actionMap action (unit i) = action.entries i :=
  combine_unit _ i

theorem linearMap_ext {M : Type*} [AddCommGroup M] [Module (ZMod 2) M]
    {f g : Bits →ₗ[ZMod 2] M} (h : ∀ i, f (unit i) = g (unit i)) : f = g := by
  refine LinearMap.ext fun v => ?_
  induction v using unit_induction with
  | zero => rw [map_zero, map_zero]
  | unit_add i v _ ih => rw [map_add, map_add, h, ih]

/-- A matrix whose rows preserve the symplectic form of the units. -/
structure IsSymplecticAction (action : AlignedBitMatrix) (qubitCount : ℕ) : Prop where
  rowCount_eq : action.rowCount = 2 * qubitCount
  columnCount_eq : action.columnCount = 2 * qubitCount
  form_eq : ∀ i, i < 2 * qubitCount → ∀ j, j < 2 * qubitCount →
    symplecticForm qubitCount (action.entries i) (action.entries j) =
      symplecticForm qubitCount (Bits.unit i) (Bits.unit j)

section Action

variable {action : AlignedBitMatrix} {n : ℕ} (h : IsSymplecticAction action n)

include h

theorem IsSymplecticAction.below_entries (i : ℕ) : (action.entries i).Below (2 * n) := by
  rw [← h.columnCount_eq]
  exact below_low _ _

theorem IsSymplecticAction.below_actionMap (v : Bits) : (actionMap action v).Below (2 * n) :=
  below_combine _ fun i _ => h.below_entries i

theorem IsSymplecticAction.entries_eq_zero {i : ℕ} (hi : 2 * n ≤ i) : action.entries i = 0 := by
  rw [entries, row_of_le (h.rowCount_eq.trans_le hi), low_eq_self (below_zero _)]

theorem IsSymplecticAction.isometry :
    Transvection.Isometry (symplecticForm n) (actionMap action) := by
  have hunits : ∀ i j, symplecticForm n (actionMap action (unit i))
      (actionMap action (unit j)) = symplecticForm n (unit i) (unit j) := by
    intro i j
    rw [actionMap_unit, actionMap_unit]
    rcases lt_or_ge i (2 * n) with hi | hi
    · rcases lt_or_ge j (2 * n) with hj | hj
      · exact h.form_eq i hi j hj
      · rw [h.entries_eq_zero hj, map_zero, symplecticForm_apply, exchange_unit,
          if_neg (by omega), dot_zero_right]
        rfl
    · rw [h.entries_eq_zero hi, map_zero, LinearMap.zero_apply, symplecticForm_apply,
        dot_unit_left, index_exchange, decide_eq_false (by omega), Bool.false_and]
      rfl
  have hleft : ∀ i, (symplecticForm n (actionMap action (unit i))).comp (actionMap action) =
      symplecticForm n (unit i) := fun i => linearMap_ext (hunits i)
  have hboth : (symplecticForm n).compl₁₂ (actionMap action) (actionMap action) =
      symplecticForm n := linearMap_ext hleft
  exact fun u v => LinearMap.congr_fun₂ hboth u v

theorem IsSymplecticAction.surjOn :
    Set.SurjOn (actionMap action) {v | v.Below (2 * n)} {v | v.Below (2 * n)} := by
  have hinjective : Set.InjOn (actionMap action) {v | v.Below (2 * n)} := by
    intro u hu v hv huv
    refine add_eq_zero_iff.mp (eq_zero_of_symplecticForm (hu.add hv) fun w hw => ?_)
    rw [← h.isometry, map_add, huv, add_self, map_zero]
  intro v hv
  obtain ⟨u, hu, huv⟩ := Set.surj_on_of_inj_on_of_ncard_le (fun u _ => actionMap action u)
    (fun u _ => h.below_actionMap u) (fun u v hu hv huv => hinjective hu hv huv) le_rfl
    (finite_below _) v hv
  exact ⟨u, hu, huv.symm⟩

omit h in
theorem filled_residueMatrix :
    Filled (zeros (2 * n) (2 * n)) (residueMatrix action n) fun i j => decide (i < 2 * n) &&
      (decide (j < 2 * n) && (action.get (swappedIndex n i) j ^^ decide (swappedIndex n i = j))) :=
  Filled.foldl_range (by rw [rowCount_zeros]) fun _ row hrow =>
    filled_setWhere hrow (2 * n) fun column =>
      action.get (swappedIndex n row) column ^^ decide (swappedIndex n row = column)

omit h in
theorem rowCount_residueMatrix : (residueMatrix action n).rowCount = 2 * n := by
  rw [filled_residueMatrix.rowCount_eq, rowCount_zeros]

omit h in
theorem columnCount_residueMatrix : (residueMatrix action n).columnCount = 2 * n := by
  rw [filled_residueMatrix.columnCount_eq, columnCount_zeros]

theorem entries_residueMatrix (i : ℕ) : (residueMatrix action n).entries i = if i < 2 * n then
        unit (swappedIndex n i) + actionMap action (unit (swappedIndex n i)) else 0 := by
  refine ext_index fun j => ?_
  rw [entries, index_low, columnCount_residueMatrix, filled_residueMatrix.index_row, actionMap_unit]
  split_ifs with hi
  · rw [decide_eq_true hi, index_add, index_unit, entries, index_low, h.columnCount_eq]
    by_cases hj : j < 2 * n
    · rw [decide_eq_true hj, Bool.true_and, Bool.true_and, Bool.true_and, Bool.true_and,
        Bool.xor_comm]
      rfl
    · have hne : swappedIndex n i ≠ j := by
        have hlt := swappedIndex_lt hi
        omega
      rw [decide_eq_false hj, decide_eq_false hne]
      rfl
  · rw [decide_eq_false hi, index_zero, Bool.false_and, Bool.and_false]

theorem combine_residueMatrix (t : Bits) : Bits.combine (residueMatrix action n).entries t =
      exchange n t + actionMap action (exchange n t) := by
  induction t using unit_induction with
  | zero =>
    have hzero : exchange n 0 = 0 := by
      have hsum := exchange_add n 0 0
      rw [add_zero] at hsum
      rw [hsum, add_self]
    rw [hzero, map_zero, combine_zero, add_zero]
  | unit_add i t _ ih =>
    rw [combine_unit_add, ih, exchange_add, map_add, entries_residueMatrix h, exchange_unit]
    split_ifs
    · abel
    · rw [map_zero, zero_add, zero_add, zero_add]

/-- The basis and the core of an action: coordinates of the residue, the vectors that the action
moves by them, and the form that pairs the one with the other. -/
structure CoreOf (action : AlignedBitMatrix) (qubitCount : ℕ) (basis : AlignedBitMatrix)
    (rank : ℕ) (core : AlignedBitMatrix) : Prop where
  rowCount_basis : basis.rowCount = rank
  columnCount_basis : basis.columnCount = 2 * qubitCount
  below_basis : ∀ i, (basis.row i).Below (2 * qubitCount)
  rowCount_core : core.rowCount = rank
  columnCount_core : core.columnCount = rank
  clear_core : core.Clear
  residueForm : ∃ source, Transvection.ResidueForm (symplecticForm qubitCount) (actionMap action)
    (coreForm core) (combineMap basis.row) source
  cover : ∀ x : Bits, x.Below (2 * qubitCount) →
    ∃ a : Bits, a.Below rank ∧ combineMap basis.row a = x + actionMap action x
  eq_zero : ∀ a : Bits, a.Below rank → combineMap basis.row a = 0 → a = 0

theorem coreOf_residueCore : CoreOf action n (residueCore action n).1 (residueCore action n).2.1
      (residueCore action n).2.2 := by
  obtain ⟨pivots, hrow⟩ := rowReduction_rowReduceWithTransform (residueMatrix action n)
  have hcore : residueCore action n = ((rowReduceWithTransform (residueMatrix action n)).1,
      (rowReduceWithTransform (residueMatrix action n)).1.rowCount,
      (rowReduceWithTransform (residueMatrix action n)).1.dot
        (rowReduceWithTransform (residueMatrix action n)).2.transposed) := rfl
  rw [hcore]
  generalize (rowReduceWithTransform (residueMatrix action n)).1 = basis at hrow ⊢
  generalize (rowReduceWithTransform (residueMatrix action n)).2 = transform at hrow ⊢
  have hbelow := hrow.below_basis
  have hbelowTransform := hrow.below_transform
  have hcolumns := hrow.columnCount_basis
  have hcolumnsTransform := hrow.columnCount_transform
  rw [rowCount_residueMatrix] at hbelowTransform hcolumnsTransform
  rw [columnCount_residueMatrix] at hbelow hcolumns
  have hindex : ∀ i j, ((basis.dot transform.transposed).row i).index j =
      Bits.dot (basis.row i) (transform.row j) := by
    intro i j
    rcases lt_or_ge i basis.rowCount with hi | hi
    · rw [row_dot _ _ hi, hcolumns, low_eq_self (hbelow i)]
      refine index_combine _ (fun k => ?_) _
      rcases lt_or_ge k (2 * n) with hk | hk
      · exact get_transposed (by omega) j
      · rw [row_of_le (by rw [rowCount_transposed]; omega), index_zero,
          (hbelowTransform j).index_eq_false hk]
    · rw [row_of_le (by rw [rowCount_dot]; omega), row_of_le hi, index_zero, dot_zero_left]
  refine ⟨rfl, hcolumns, hbelow, rowCount_dot _ _, ?_, fun i => ?_,
    ⟨exchangeMap n ∘ₗ combineMap transform.row, ⟨fun a b => ?_, fun b => ?_⟩⟩, fun x hx => ?_,
    fun a ha hzero => ?_⟩
  · rw [columnCount_dot, columnCount_transposed, hrow.rowCount_transform, hrow.rowCount_basis]
  · rw [columnCount_dot, columnCount_transposed, hrow.rowCount_transform, below_iff]
    intro j hj
    rw [hindex, row_of_le (m := transform) (by rw [hrow.rowCount_transform]; exact hj),
      dot_zero_right]
  · have hbelowTransformed : (Bits.combine transform.row b).Below (2 * n) :=
      below_combine _ fun i _ => hbelowTransform i
    change PauliVector.signBit _ = PauliVector.signBit (Bits.dot (Bits.combine basis.row a)
      (exchange n (exchange n (Bits.combine transform.row b))))
    rw [exchange_exchange, low_eq_self hbelowTransformed]
    refine congrArg _ (dot_combine _ (fun i => ?_) a).symm
    rw [index_mulVec, dot_comm, dot_combine _ (fun j => ?_) b, dot_comm]
    rw [hindex, dot_comm]
  · have hsum := combine_residueMatrix h (Bits.combine transform.row b)
    rw [combine_combine, ← funext hrow.basis_eq] at hsum
    exact hsum.symm
  · have hmem : x + actionMap action x ∈
        rowSpace (2 * n) (residueMatrix action n).entries := by
      refine ⟨exchange n x, ?_, ?_⟩
      · rw [below_iff]
        intro i hi
        rw [index_exchange, decide_eq_false (by omega), Bool.false_and]
      · rw [combine_residueMatrix h, exchange_exchange, low_eq_self hx]
    have hspace := hrow.rowSpace_eq
    rw [rowCount_residueMatrix] at hspace
    rw [← hspace] at hmem
    rw [hrow.rowCount_basis]
    exact hmem
  · rw [hrow.rowCount_basis] at ha
    rw [← hrow.reduced.coefficients_combine ha, ← combineMap_apply, hzero]
    have hcoefficients := hrow.reduced.coefficients_combine (below_zero pivots.length)
    rwa [combine_zero] at hcoefficients

end Action

end TransvectionExact

end QdkEc
