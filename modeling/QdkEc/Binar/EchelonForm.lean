import QdkEc.Binar.AlignedBitMatrix
import QdkEc.Lib.RowSpace

/-!
# Echelon forms

This module models `EchelonForm`: elimination of a bit matrix together with the
transform that it applies and the inverse transpose of the transform, and the
two solvers that use them.  It also models the elimination in place, which adds
rows from the block of the pivot on.
-/

namespace QdkEc

open List

namespace AlignedBitMatrix

/-- The first entry with a one from a position on, column by column; without one, the position
behind the last column. -/
def pivotOf (m : AlignedBitMatrix) (startingAt : ℕ × ℕ) : ℕ × ℕ :=
  if m.rowCount ≤ startingAt.1 ∨ m.columnCount ≤ startingAt.2 then startingAt
  else
    let rowIndexes := List.range' startingAt.1 (m.rowCount - startingAt.1)
    let columnIndexes := List.range' startingAt.2 (m.columnCount - startingAt.2)
    (columnIndexes.findSome? fun columnIndex =>
      (rowIndexes.find? fun rowIndex => m.get rowIndex columnIndex).map (·, columnIndex)).getD
        (startingAt.1, m.columnCount)

/-- The combination of the rows that a bit set selects. -/
def rightMultiply (m : AlignedBitMatrix) (left : Bits) : Bits :=
  Bits.combine m.row left

/-- The pairings of the rows with a bit set. -/
def mulVec (m : AlignedBitMatrix) (right : Bits) : Bits :=
  Bits.fromIndices ((List.range m.rowCount).filter fun i => Bits.dot (m.row i) right)

end AlignedBitMatrix

/-- The reduced row echelon form of a matrix with the transform that produces it. -/
structure EchelonForm where
  matrix : AlignedBitMatrix
  transform : AlignedBitMatrix
  transformInvT : AlignedBitMatrix
  pivots : List ℕ

namespace EchelonForm

/-- Add the pivot row into a row with a one in the pivot column, in the matrix and the transform,
and back in the inverse transpose. -/
def xorIfColumnWithTransforms (columnIndex fromRowIndex : ℕ) (form : EchelonForm) (rowIndex : ℕ) :
    EchelonForm :=
  if form.matrix.get rowIndex columnIndex then
    { form with
      matrix := form.matrix.addIntoRow rowIndex fromRowIndex
      transform := form.transform.addIntoRow rowIndex fromRowIndex
      transformInvT := form.transformInvT.addIntoRow fromRowIndex rowIndex }
  else form

def otherRows (fromRowIndex rowCount : ℕ) : List ℕ :=
  List.range fromRowIndex ++ List.range' (fromRowIndex + 1) (rowCount - (fromRowIndex + 1))

/-- Clear the pivot column in every other row. -/
def reduceWithTransforms (form : EchelonForm) (source : ℕ × ℕ) : EchelonForm :=
  (otherRows source.1 form.matrix.rowCount).foldl
    (xorIfColumnWithTransforms source.2 source.1) form

/-- Exchange two rows of the three matrices and record a pivot. -/
def swapRowsWithTransforms (form : EchelonForm) (pivot : ℕ × ℕ) (rowIndex : ℕ) : EchelonForm where
  matrix := form.matrix.swapRows pivot.1 rowIndex
  transform := form.transform.swapRows pivot.1 rowIndex
  transformInvT := form.transformInvT.swapRows pivot.1 rowIndex
  pivots := form.pivots ++ [pivot.2]

/-- The elimination loop from a row on. -/
def eliminate : ℕ → ℕ → ℕ × ℕ → EchelonForm → EchelonForm
  | 0, _, _, form => form
  | remaining + 1, rowIndex, pivot, form =>
    if form.matrix.columnCount ≤ pivot.2 then form
    else
      let form := (form.swapRowsWithTransforms pivot rowIndex).reduceWithTransforms
        (rowIndex, pivot.2)
      eliminate remaining (rowIndex + 1) (form.matrix.pivotOf (rowIndex + 1, pivot.2 + 1)) form

/-- The echelon form of a matrix. -/
def new (matrix : AlignedBitMatrix) : EchelonForm :=
  eliminate matrix.rowCount 0 (matrix.pivotOf (0, 0)) {
    matrix := matrix
    transform := .identity matrix.rowCount
    transformInvT := .identity matrix.rowCount
    pivots := [] }

/-- Substitution from the first pivot row to the last one. -/
def transposeSolveRrefSystem (matrix : AlignedBitMatrix) (pivots : List ℕ) (target : Bits) :
    Option Bits :=
  let (residualTarget, solution) := (List.range pivots.length).foldl
    (fun (residualTarget, solution) rowIndex =>
      if residualTarget.index (pivots.getD rowIndex 0) then
        (residualTarget + matrix.row rowIndex, AlignedBitMatrix.assignIndex solution rowIndex true)
      else (residualTarget, solution)) (target, 0)
  if residualTarget = 0 then some solution else none

/-- Solve `x A = target`. -/
def transposeSolve (form : EchelonForm) (target : Bits) :
    Option Bits := do
  let rrefSolution ← transposeSolveRrefSystem form.matrix form.pivots target
  some (form.transform.rightMultiply rrefSolution)

end EchelonForm

namespace AlignedBitMatrix

/-- Add the blocks of the pivot row from the pivot on into every other row with a one in the pivot
column. -/
def reduce (m : AlignedBitMatrix) (source : ℕ × ℕ) : AlignedBitMatrix :=
  let startBlock := source.2 / blockBitLen * blockBitLen
  (EchelonForm.otherRows source.1 m.rowCount).foldl (fun m rowIndex =>
    if m.get rowIndex source.2 then
      m.setRow rowIndex
        (m.row rowIndex + (Bits.shiftDown startBlock (m.row source.1)).shiftUp startBlock)
    else m) m

/-- The elimination loop in place. -/
def echelonizeFrom : ℕ → ℕ → ℕ × ℕ → AlignedBitMatrix × List ℕ → AlignedBitMatrix × List ℕ
  | 0, _, _, state => state
  | remaining + 1, rowIndex, pivot, (m, rankProfile) =>
    if m.columnCount ≤ pivot.2 then (m, rankProfile)
    else
      let m := (m.swapRows pivot.1 rowIndex).reduce (rowIndex, pivot.2)
      echelonizeFrom remaining (rowIndex + 1) (m.pivotOf (rowIndex + 1, pivot.2 + 1))
        (m, rankProfile ++ [pivot.2])

/-- Bring a matrix into reduced row echelon form in place, with its pivots. -/
def echelonize (m : AlignedBitMatrix) : AlignedBitMatrix × List ℕ :=
  echelonizeFrom m.rowCount 0 (m.pivotOf (0, 0)) (m, [])

end AlignedBitMatrix

namespace AlignedBitMatrix

theorem get_eq_false_of_le {m : AlignedBitMatrix} {i : ℕ} (hi : m.rowCount ≤ i) (j : ℕ) :
    m.get i j = false := by
  rw [get, row_of_le hi, Bits.index_zero]

theorem row_identity {dimension i : ℕ} (hi : i < dimension) :
    (identity dimension).row i = Bits.unit i := by
  have hfold : ∀ n, n ≤ dimension →
      ((List.range n).foldl (fun m i => m.set i i true) (zeros dimension dimension)).rowCount =
          dimension ∧
        ∀ i j, ((List.range n).foldl (fun m i => m.set i i true)
          (zeros dimension dimension)).get i j = (decide (i < n) && decide (i = j)) := by
    intro n hn
    induction n with
    | zero =>
      refine ⟨rowCount_zeros _ _, fun i j => ?_⟩
      simp [get]
    | succ n ih =>
      obtain ⟨hrows, hget⟩ := ih (by omega)
      rw [range_succ, foldl_append, foldl_cons, foldl_nil]
      refine ⟨hrows, fun i j => ?_⟩
      rw [get_set (by omega), hget]
      rcases Nat.lt_trichotomy i n with hlt | rfl | hlt
      · simp [hlt, Nat.ne_of_lt hlt, show i < n + 1 by omega]
      · simp [eq_comm]
      · simp [show ¬ i < n by omega, show i ≠ n by omega, show ¬ i < n + 1 by omega]
  refine Bits.ext_index fun j => ?_
  have hget := (hfold dimension (le_refl _)).2 i j
  simpa [get, hi, identity] using hget

@[simp]
theorem rowCount_identity (dimension : ℕ) : (identity dimension).rowCount = dimension := by
  have hfold : ∀ l : List ℕ, ∀ m : AlignedBitMatrix,
      (l.foldl (fun m i => m.set i i true) m).rowCount = m.rowCount := by
    intro l
    induction l with
    | nil =>
      intro m
      rfl
    | cons i l ih =>
      intro m
      rw [foldl_cons, ih, rowCount_set]
  rw [identity, hfold, rowCount_zeros]

/-- What a pivot search finds from a position on. -/
structure IsPivot (m : AlignedBitMatrix) (startingAt pivot : ℕ × ℕ) : Prop where
  le : startingAt.2 ≤ pivot.2
  before : ∀ i j, startingAt.1 ≤ i → startingAt.2 ≤ j → j < pivot.2 → m.get i j = false
  found : pivot.2 < m.columnCount → startingAt.1 < m.rowCount →
    startingAt.1 ≤ pivot.1 ∧ pivot.1 < m.rowCount ∧ m.get pivot.1 pivot.2 = true
  le_columnCount : startingAt.2 ≤ m.columnCount → pivot.2 ≤ m.columnCount

theorem mem_range'_sub {s n i : ℕ} : i ∈ List.range' s (n - s) ↔ s ≤ i ∧ i < n := by
  rw [mem_range'_1]
  omega

theorem isPivot_pivotOf (m : AlignedBitMatrix) (startingAt : ℕ × ℕ) :
    m.IsPivot startingAt (m.pivotOf startingAt) := by
  obtain ⟨r, c⟩ := startingAt
  unfold pivotOf
  split_ifs with hempty
  · refine ⟨le_refl c, fun i j _ hj hlt => ?_, fun hc hr => ?_, id⟩
    · dsimp only at hj hlt
      omega
    · rcases hempty with h | h
      · exact absurd hr (by omega)
      · exact absurd hc (by omega)
  push Not at hempty
  dsimp only at hempty ⊢
  have hrow : ∀ j, ((List.range' r (m.rowCount - r)).find? fun i => m.get i j) = none →
      ∀ i, r ≤ i → m.get i j = false := by
    intro j hnone i hi
    rw [find?_eq_none] at hnone
    rcases Nat.lt_or_ge i m.rowCount with hlt | hge
    · simpa using hnone i (mem_range'_sub.mpr ⟨hi, hlt⟩)
    · exact get_eq_false_of_le hge j
  cases hsearch : (List.range' c (m.columnCount - c)).findSome? fun j =>
      ((List.range' r (m.rowCount - r)).find? fun i => m.get i j).map (·, j) with
  | none =>
    rw [findSome?_eq_none_iff] at hsearch
    refine ⟨hempty.2.le, fun i j hi hj hlt => ?_, fun hlt => ?_, fun _ => le_refl _⟩
    · have hnone := hsearch j (mem_range'_sub.mpr ⟨hj, hlt⟩)
      exact hrow j (Option.map_eq_none_iff.mp hnone) i hi
    · exact absurd hlt (Nat.lt_irrefl _)
  | some pivot =>
    rw [findSome?_eq_some_iff] at hsearch
    obtain ⟨before, j, after, hsplit, hfound, hnone⟩ := hsearch
    obtain ⟨i, hi, rfl⟩ := Option.map_eq_some_iff.mp hfound
    have hget : m.get i j = true := find?_some (p := fun i => m.get i j) hi
    have hmem := mem_range'_sub.mp (mem_of_find?_eq_some hi)
    have hj : j ∈ List.range' c (m.columnCount - c) := by
      rw [hsplit]
      simp
    have hcolumns := mem_range'_sub.mp hj
    refine ⟨hcolumns.1, fun i' j' hi' hj' hlt => ?_, fun _ _ => ⟨hmem.1, hmem.2, hget⟩,
      fun _ => hcolumns.2.le⟩
    refine hrow j' (Option.map_eq_none_iff.mp (hnone j' ?_)) i' hi'
    have hmem' : j' ∈ before ++ j :: after := by
      rw [← hsplit]
      exact mem_range'_sub.mpr ⟨hj', lt_trans hlt hcolumns.2⟩
    rcases mem_append.mp hmem' with h | h
    · exact h
    · have hsorted : (before ++ j :: after).Pairwise (· < ·) := by
        rw [← hsplit]
        exact pairwise_lt_range'
      have hafter := (pairwise_cons.mp (pairwise_append.mp hsorted).2.1).1
      rcases mem_cons.mp h with rfl | h
      · exact absurd hlt (Nat.lt_irrefl _)
      · have hlt' : j' < j := hlt
        exact absurd (hafter j' h) (by omega)

end AlignedBitMatrix

namespace EchelonForm

open AlignedBitMatrix

/-- The transform of a form is invertible, and its inverse transpose is the third matrix. -/
structure Transforms (A : AlignedBitMatrix) (form : EchelonForm) : Prop where
  rowCount : form.matrix.rowCount = A.rowCount
  columnCount : form.matrix.columnCount = A.columnCount
  transform_rowCount : form.transform.rowCount = A.rowCount
  transformInvT_rowCount : form.transformInvT.rowCount = A.rowCount
  dual : Bits.DualRows A.rowCount form.transform.row form.transformInvT.row
  combine : ∀ i, form.matrix.row i = Bits.combine A.row (form.transform.row i)

theorem mem_otherRows {p n i : ℕ} (hp : p < n) : i ∈ otherRows p n ↔ i < n ∧ i ≠ p := by
  unfold otherRows
  rw [mem_append, mem_range, mem_range'_sub]
  omega

theorem nodup_otherRows (p n : ℕ) : (otherRows p n).Nodup := by
  refine List.Nodup.append nodup_range nodup_range' ?_
  intro i hi hi'
  rw [mem_range] at hi
  rw [mem_range'_sub] at hi'
  omega

variable {pivot : ℕ × ℕ}

section Steps

variable {A : AlignedBitMatrix} {form : EchelonForm} (h : Transforms A form)

include h

theorem Transforms.xorIfColumn {c p i : ℕ} (hp : p < A.rowCount) (hi : i < A.rowCount)
    (hip : i ≠ p) : Transforms A (form.xorIfColumnWithTransforms c p i) := by
  unfold xorIfColumnWithTransforms
  split_ifs with hget
  · have hrowT : (form.transform.addIntoRow i p).row =
        fun j => if j = i then form.transform.row i + form.transform.row p
          else form.transform.row j :=
      funext fun j => row_addIntoRow (by rw [h.transform_rowCount]; exact hi) p j
    have hrowS : (form.transformInvT.addIntoRow p i).row =
        fun j => if j = p then form.transformInvT.row p + form.transformInvT.row i
          else form.transformInvT.row j :=
      funext fun j => row_addIntoRow (by rw [h.transformInvT_rowCount]; exact hp) i j
    refine ⟨h.rowCount, h.columnCount, h.transform_rowCount, h.transformInvT_rowCount, ?_, ?_⟩
    · rw [hrowT, hrowS]
      exact h.dual.addRow hi hp hip
    · intro j
      rw [row_addIntoRow (by rw [h.rowCount]; exact hi), hrowT]
      rcases eq_or_ne j i with rfl | hji
      · simp only [if_true, h.combine, Bits.combine_add]
      · simp only [hji, if_false, h.combine]
  · exact h

theorem Transforms.swapRows {rowIndex : ℕ} (hpivot : pivot.1 < A.rowCount)
    (hrow : rowIndex < A.rowCount) : Transforms A (form.swapRowsWithTransforms pivot rowIndex) := by
  have hrows : ∀ {m : AlignedBitMatrix}, m.rowCount = A.rowCount →
      (m.swapRows pivot.1 rowIndex).row = fun i => m.row (Equiv.swap pivot.1 rowIndex i) :=
    fun hm => funext fun i => row_swapRows (by omega) (by omega) i
  refine ⟨(rowCount_swapRows _ _ _).trans h.rowCount, h.columnCount,
    (rowCount_swapRows _ _ _).trans h.transform_rowCount,
    (rowCount_swapRows _ _ _).trans h.transformInvT_rowCount, ?_, ?_⟩
  · change Bits.DualRows _ (form.transform.swapRows _ _).row (form.transformInvT.swapRows _ _).row
    rw [hrows h.transform_rowCount, hrows h.transformInvT_rowCount]
    refine h.dual.permute _ fun i hi => ?_
    rw [Equiv.swap_apply_def]
    split_ifs <;> assumption
  · intro i
    change (form.matrix.swapRows _ _).row i = Bits.combine A.row
      ((form.transform.swapRows _ _).row i)
    rw [hrows h.rowCount, hrows h.transform_rowCount]
    exact h.combine _

theorem Transforms.foldl_xorIfColumn {c p : ℕ} (hp : p < A.rowCount) {l : List ℕ} (hl : l.Nodup)
    (hmem : ∀ i ∈ l, i < A.rowCount ∧ i ≠ p) :
    Transforms A (l.foldl (xorIfColumnWithTransforms c p) form) ∧
      (l.foldl (xorIfColumnWithTransforms c p) form).pivots = form.pivots ∧
        ∀ j, (l.foldl (xorIfColumnWithTransforms c p) form).matrix.row j =
          if j ∈ l ∧ form.matrix.get j c = true then form.matrix.row j + form.matrix.row p
          else form.matrix.row j := by
  induction l generalizing form with
  | nil => exact ⟨h, rfl, fun j => by simp⟩
  | cons i l ih =>
    obtain ⟨hi, hip⟩ := hmem i (by simp)
    obtain ⟨hil, hl⟩ := nodup_cons.mp hl
    have hstep : ∀ j, (form.xorIfColumnWithTransforms c p i).matrix.row j =
        if j = i ∧ form.matrix.get i c = true then form.matrix.row i + form.matrix.row p
        else form.matrix.row j := by
      intro j
      unfold xorIfColumnWithTransforms
      split_ifs with hget hji hji
      · rw [row_addIntoRow (by rw [h.rowCount]; exact hi), if_pos hji.1]
      · rw [row_addIntoRow (by rw [h.rowCount]; exact hi), if_neg fun hj => hji ⟨hj, hget⟩]
      · exact absurd hji.2 hget
      · rfl
    have hpivots : (form.xorIfColumnWithTransforms c p i).pivots = form.pivots := by
      unfold xorIfColumnWithTransforms
      split_ifs <;> rfl
    obtain ⟨htransforms, hpivots', hrows⟩ := ih (h.xorIfColumn (c := c) hp hi hip) hl
      fun j hj => hmem j (by simp [hj])
    rw [foldl_cons]
    refine ⟨htransforms, hpivots'.trans hpivots, fun j => ?_⟩
    have hrowp : (form.xorIfColumnWithTransforms c p i).matrix.row p = form.matrix.row p := by
      rw [hstep, if_neg fun hp' => hip hp'.1.symm]
    rw [hrows, hrowp, AlignedBitMatrix.get, hstep]
    rcases eq_or_ne j i with rfl | hji
    · simp [hil]
    · simp [hji, AlignedBitMatrix.get]

theorem Transforms.reduce {c p : ℕ} (hp : p < A.rowCount) :
    Transforms A (form.reduceWithTransforms (p, c)) ∧
      (form.reduceWithTransforms (p, c)).pivots = form.pivots ∧
        ∀ j, (form.reduceWithTransforms (p, c)).matrix.row j =
          if j ≠ p ∧ form.matrix.get j c = true then form.matrix.row j + form.matrix.row p
          else form.matrix.row j := by
  have hmem : ∀ i, i ∈ otherRows p form.matrix.rowCount ↔ i < A.rowCount ∧ i ≠ p := by
    intro i
    rw [h.rowCount, mem_otherRows hp]
  obtain ⟨htransforms, hpivots, hrows⟩ := h.foldl_xorIfColumn (c := c) hp
    (nodup_otherRows p form.matrix.rowCount) fun i hi => (hmem i).mp hi
  refine ⟨htransforms, hpivots, fun j => (hrows j).trans ?_⟩
  refine if_congr ?_ rfl rfl
  rw [hmem]
  constructor
  · rintro ⟨⟨_, hjp⟩, hget⟩
    exact ⟨hjp, hget⟩
  · rintro ⟨hjp, hget⟩
    refine ⟨⟨?_, hjp⟩, hget⟩
    by_contra hj
    rw [get_eq_false_of_le (by rw [h.rowCount]; omega)] at hget
    cases hget

end Steps

/-- A form whose columns before `c` are eliminated. -/
structure Eliminated (A : AlignedBitMatrix) (form : EchelonForm) (c : ℕ) : Prop where
  transforms : Transforms A form
  sorted : form.pivots.Pairwise (· < ·)
  lt : ∀ j ∈ form.pivots, j < c
  leading : ∀ i (hi : i < form.pivots.length) j, j < form.pivots[i] →
    form.matrix.get i j = false
  pivot : ∀ i j (hj : j < form.pivots.length),
    form.matrix.get i form.pivots[j] = decide (i = j)
  cleared : ∀ i j, form.pivots.length ≤ i → j < c → form.matrix.get i j = false

theorem Eliminated.get_swapRows {A : AlignedBitMatrix} {form : EchelonForm} {c : ℕ}
    (h : Eliminated A form c) (hrank : form.pivots.length < A.rowCount)
    (hpivot : form.matrix.IsPivot (form.pivots.length, c) pivot)
    (hcolumn : pivot.2 < A.columnCount) :
    let swapped := form.swapRowsWithTransforms pivot form.pivots.length
    (∀ i j, i < form.pivots.length → swapped.matrix.get i j = form.matrix.get i j) ∧
      (∀ i j, form.pivots.length ≤ i → j < pivot.2 → swapped.matrix.get i j = false) ∧
        swapped.matrix.get form.pivots.length pivot.2 = true := by
  obtain ⟨r, c'⟩ := pivot
  obtain ⟨hle, hlt, hget⟩ := hpivot.found (by rw [h.transforms.columnCount]; exact hcolumn)
    (by rw [h.transforms.rowCount]; exact hrank)
  dsimp only at hle hlt hget ⊢
  have hswapRow : ∀ i j, (form.swapRowsWithTransforms (r, c') form.pivots.length).matrix.get i j =
      form.matrix.get (Equiv.swap r form.pivots.length i) j := by
    intro i j
    unfold AlignedBitMatrix.get
    rw [← row_swapRows (m := form.matrix) hlt (by rw [h.transforms.rowCount]; exact hrank)]
    rfl
  refine ⟨fun i j hi => ?_, fun i j hi hj => ?_, ?_⟩
  · rw [hswapRow, Equiv.swap_apply_of_ne_of_ne (by omega) (by omega)]
  · have hswapGe : form.pivots.length ≤ Equiv.swap r form.pivots.length i := by
      rw [Equiv.swap_apply_def]
      split_ifs <;> omega
    rw [hswapRow]
    rcases Nat.lt_or_ge j c with hjc | hjc
    · exact h.cleared _ j hswapGe hjc
    · exact hpivot.before _ j hswapGe hjc hj
  · rw [hswapRow, Equiv.swap_apply_right]
    exact hget

theorem Eliminated.get_reduce {A : AlignedBitMatrix} {form : EchelonForm} {c : ℕ}
    (h : Eliminated A form c) (hrank : form.pivots.length < A.rowCount)
    (hpivot : form.matrix.IsPivot (form.pivots.length, c) pivot) (hcolumn : pivot.2 < A.columnCount)
    {next : EchelonForm} (hnext : ∀ j, next.matrix.row j = if j ≠ form.pivots.length ∧
          (form.swapRowsWithTransforms pivot form.pivots.length).matrix.get j pivot.2 = true then
        (form.swapRowsWithTransforms pivot form.pivots.length).matrix.row j +
          (form.swapRowsWithTransforms pivot form.pivots.length).matrix.row form.pivots.length
      else (form.swapRowsWithTransforms pivot form.pivots.length).matrix.row j) :
    (∀ i j, i < form.pivots.length → j < pivot.2 → next.matrix.get i j = form.matrix.get i j) ∧
      (∀ i j, form.pivots.length ≤ i → j < pivot.2 → next.matrix.get i j = false) ∧
        ∀ i, next.matrix.get i pivot.2 = decide (i = form.pivots.length) := by
  obtain ⟨hself, hclear, hone⟩ := h.get_swapRows hrank hpivot hcolumn
  set swapped := form.swapRowsWithTransforms pivot form.pivots.length
  have hentry : ∀ i j, next.matrix.get i j =
      if i ≠ form.pivots.length ∧ swapped.matrix.get i pivot.2 = true then
        (swapped.matrix.get i j ^^ swapped.matrix.get form.pivots.length j)
      else swapped.matrix.get i j := by
    intro i j
    rw [AlignedBitMatrix.get, hnext]
    split_ifs
    · exact Bits.index_add _ _ _
    · rfl
  have hbefore : ∀ i j, j < pivot.2 → next.matrix.get i j = swapped.matrix.get i j := by
    intro i j hj
    rw [hentry, hclear _ j (le_refl _) hj, Bool.xor_false, ite_self]
  refine ⟨fun i j hi hj => ?_, fun i j hi hj => ?_, fun i => ?_⟩
  · rw [hbefore i j hj, hself i j hi]
  · rw [hbefore i j hj, hclear i j hi hj]
  · rw [hentry, hone]
    rcases eq_or_ne i form.pivots.length with rfl | hik
    · simp [hone]
    · cases hi : swapped.matrix.get i pivot.2 <;> simp [hik]

theorem Eliminated.step {A : AlignedBitMatrix} {form : EchelonForm} {c : ℕ}
    (h : Eliminated A form c) (hrank : form.pivots.length < A.rowCount)
    (hpivot : form.matrix.IsPivot (form.pivots.length, c) pivot)
    (hcolumn : pivot.2 < A.columnCount) :
    Eliminated A ((form.swapRowsWithTransforms pivot form.pivots.length).reduceWithTransforms
        (form.pivots.length, pivot.2)) (pivot.2 + 1) ∧
      ((form.swapRowsWithTransforms pivot form.pivots.length).reduceWithTransforms
        (form.pivots.length, pivot.2)).pivots = form.pivots ++ [pivot.2] := by
  have hr : pivot.1 < A.rowCount := by
    rw [← h.transforms.rowCount]
    exact (hpivot.found (by rw [h.transforms.columnCount]; exact hcolumn)
      (by rw [h.transforms.rowCount]; exact hrank)).2.1
  obtain ⟨htransforms, hpivots, hrows⟩ := (h.transforms.swapRows hr hrank).reduce (c := pivot.2)
    hrank
  obtain ⟨habove, hbelow, hunit⟩ := h.get_reduce hrank hpivot hcolumn hrows
  have hcc : c ≤ pivot.2 := hpivot.le
  set next := (form.swapRowsWithTransforms pivot form.pivots.length).reduceWithTransforms
    (form.pivots.length, pivot.2)
  have hpivotsEq : next.pivots = form.pivots ++ [pivot.2] := hpivots
  refine ⟨?_, hpivotsEq⟩
  have hgetElem : ∀ i (hi : i < next.pivots.length),
      (∃ hik : i < form.pivots.length, next.pivots[i] = form.pivots[i]) ∨
        i = form.pivots.length ∧ next.pivots[i] = pivot.2 := by
    intro i hi
    simp only [hpivotsEq] at hi ⊢
    rw [length_append, length_singleton] at hi
    rcases Nat.lt_or_ge i form.pivots.length with hik | hik
    · exact Or.inl ⟨hik, getElem_append_left hik⟩
    · have hik' : i = form.pivots.length := by omega
      subst hik'
      exact Or.inr ⟨rfl, by rw [getElem_append_right (le_refl _)]; simp⟩
  refine ⟨htransforms, ?_, ?_, ?_, ?_, ?_⟩
  · rw [hpivotsEq, pairwise_append]
    refine ⟨h.sorted, pairwise_singleton _ _, fun j hj j' hj' => ?_⟩
    obtain rfl := mem_singleton.mp hj'
    exact lt_of_lt_of_le (h.lt j hj) hcc
  · intro j hj
    rw [hpivotsEq, mem_append, mem_singleton] at hj
    rcases hj with hj | rfl
    · have := h.lt j hj
      omega
    · omega
  · intro i hi j hj
    rcases hgetElem i hi with ⟨hik, heq⟩ | ⟨rfl, heq⟩
    · rw [heq] at hj
      have hlt' := h.lt _ (getElem_mem hik)
      rw [habove i j hik (by omega)]
      exact h.leading i hik j hj
    · rw [heq] at hj
      exact hbelow _ j (le_refl _) hj
  · intro i j hj
    rcases hgetElem j hj with ⟨hjk, heq⟩ | ⟨rfl, heq⟩
    · have hlt' := h.lt _ (getElem_mem hjk)
      rw [heq]
      rcases Nat.lt_or_ge i form.pivots.length with hik | hik
      · rw [habove i _ hik (by omega)]
        exact h.pivot i j hjk
      · rw [hbelow i _ hik (by omega), decide_eq_false (by omega)]
    · rw [heq, hunit]
  · intro i j hi hj
    rw [hpivotsEq, length_append, length_singleton] at hi
    rcases Nat.lt_or_ge j pivot.2 with hjc | hjc
    · exact hbelow i j (by omega) hjc
    · have hjc' : j = pivot.2 := by omega
      rw [hjc', hunit, decide_eq_false (by omega)]

theorem Eliminated.eliminate {A : AlignedBitMatrix} (remaining : ℕ) {form : EchelonForm} {c : ℕ}
    (h : Eliminated A form c) (hc : c ≤ A.columnCount)
    (hremaining : form.pivots.length + remaining = A.rowCount)
    (hpivot : form.matrix.IsPivot (form.pivots.length, c) pivot) :
    Eliminated A (EchelonForm.eliminate remaining form.pivots.length pivot form) A.columnCount := by
  have hlast : (∀ i j, form.pivots.length ≤ i → j < A.columnCount →
      form.matrix.get i j = false) → Eliminated A form A.columnCount := fun hcleared =>
    { h with
      lt := fun j hj => lt_of_lt_of_le (h.lt j hj) hc
      cleared := hcleared }
  induction remaining generalizing form c pivot with
  | zero =>
    refine hlast fun i j hi _ => get_eq_false_of_le ?_ j
    rw [h.transforms.rowCount]
    omega
  | succ remaining ih =>
    unfold EchelonForm.eliminate
    have hcount := h.transforms.columnCount
    split_ifs with hstop
    · refine hlast fun i j hi hj => ?_
      rcases Nat.lt_or_ge j c with hjc | hjc
      · exact h.cleared i j hi hjc
      · exact hpivot.before i j hi hjc (by omega)
    · obtain ⟨hnext, hpivots⟩ := h.step (by omega) hpivot (by omega)
      have hlength : ((form.swapRowsWithTransforms pivot form.pivots.length).reduceWithTransforms
          (form.pivots.length, pivot.2)).pivots.length = form.pivots.length + 1 := by
        rw [hpivots, length_append, length_singleton]
      have hrest := ih hnext (by omega) (by omega)
        (isPivot_pivotOf _ (_, pivot.2 + 1)) fun hcleared =>
          { hnext with
            lt := fun j hj => lt_of_lt_of_le (hnext.lt j hj) (by omega)
            cleared := hcleared }
      rw [hlength] at hrest
      exact hrest

theorem eliminated_start (A : AlignedBitMatrix) :
    Eliminated A ⟨A, .identity A.rowCount, .identity A.rowCount, []⟩ 0 := by
  have hidentity : ∀ i, i < A.rowCount → (identity A.rowCount).row i = Bits.unit i :=
    fun i hi => row_identity hi
  refine ⟨⟨rfl, rfl, rowCount_identity _, rowCount_identity _, ?_, fun i => ?_⟩,
    List.Pairwise.nil, by simp, by simp, by simp, by simp⟩
  · have hunits := Bits.DualRows.units A.rowCount
    refine ⟨fun i hi => ?_, fun i hi => ?_, fun i j hi hj => ?_⟩
    · exact (hidentity i hi).symm ▸ hunits.below_left i hi
    · exact (hidentity i hi).symm ▸ hunits.below_right i hi
    · dsimp only
      rw [hidentity i hi, hidentity j hj]
      exact hunits.dot_eq i j hi hj
  · rcases Nat.lt_or_ge i A.rowCount with hi | hi
    · dsimp only
      rw [hidentity i hi, Bits.combine_unit]
    · dsimp only
      rw [row_of_le hi, row_of_le (by rwa [rowCount_identity]), Bits.combine_zero]

theorem eliminated_new (A : AlignedBitMatrix) : Eliminated A (new A) A.columnCount :=
  (eliminated_start A).eliminate A.rowCount (Nat.zero_le _) (Nat.zero_add _) (isPivot_pivotOf _ _)

section Final

variable {A : AlignedBitMatrix} {form : EchelonForm} (h : Eliminated A form A.columnCount)

include h

theorem Eliminated.length_le : form.pivots.length ≤ A.rowCount := by
  by_contra hlarge
  have hlast := h.pivot A.rowCount A.rowCount (by omega)
  rw [get_eq_false_of_le (le_of_eq h.transforms.rowCount), decide_eq_true rfl] at hlast
  cases hlast

theorem Eliminated.reduced :
    Bits.Reduced (fun i => Bits.low A.columnCount (form.matrix.row i)) form.pivots where
  sorted := h.sorted
  leading i hi j hj := by
    have hlt := h.lt _ (getElem_mem hi)
    rw [Bits.index_low, show (form.matrix.row i).index j = false from h.leading i hi j hj,
      Bool.and_false]
  pivot i j hj := by
    have hlt := h.lt _ (getElem_mem hj)
    rw [Bits.index_low, decide_eq_true hlt, Bool.true_and]
    exact h.pivot i j hj
  zero i hi := by
    refine Bits.ext_index fun j => ?_
    rw [Bits.index_low, Bits.index_zero]
    rcases Nat.lt_or_ge j A.columnCount with hj | hj
    · rw [show (form.matrix.row i).index j = false from h.cleared i j hi hj, Bool.and_false]
    · rw [decide_eq_false (by omega), Bool.false_and]

end Final

end EchelonForm

end QdkEc
