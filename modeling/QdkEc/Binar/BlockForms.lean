import QdkEc.Binar.EchelonSolve
import QdkEc.Lib.GraphRows

/-!
# Block forms of bit matrices

This module models the transposition of bit matrices and the checks on blocks of
rows: a block is a unit matrix, a block is symmetric, and the reduced form of a
block column is a unit block over a symmetric one.
-/

namespace QdkEc

open Bits List EchelonForm

namespace Bits

/-- The only bit is the one at a position. -/
def isUnit (b : Bits) (i : ℕ) : Bool :=
  b.support.length == 1 && b.index i

@[simp]
theorem isUnit_eq_true_iff {b : Bits} {i : ℕ} : b.isUnit i = true ↔ b = unit i := by
  unfold isUnit
  rw [Bool.and_eq_true, beq_iff_eq]
  constructor
  · rintro ⟨hlength, hindex⟩
    obtain ⟨j, hj⟩ := length_eq_one_iff.mp hlength
    obtain rfl : i = j := by
      rw [← mem_support, hj] at hindex
      simpa using hindex
    rw [← ofList_support b, hj]
    simp [ofList]
  · rintro rfl
    simp

end Bits

namespace AlignedBitMatrix

/-- A matrix whose rows are copied from a list. -/
def fromRowIter (rows : List Bits) (columns : ℕ) : AlignedBitMatrix :=
  fromBlocks rows columns

/-- The transposed matrix, whose rows are the columns. -/
def transposed (m : AlignedBitMatrix) : AlignedBitMatrix :=
  fromBlocks ((List.range m.columnCount).map m.column) m.rowCount

/-- Two matrices have the same shape and the same entries. -/
def eq (m other : AlignedBitMatrix) : Bool :=
  m.rowCount == other.rowCount && m.columnCount == other.columnCount &&
    (List.range m.rowCount).all fun i =>
      (List.range m.columnCount).all fun j => m.get i j == other.get i j

/-- Every row is the unit vector of its position. -/
def isZeroPaddedIdentity (rows : List Bits) : Bool :=
  rows.zipIdx.all fun entry => entry.1.isUnit entry.2

def areZeroRows (rows : List Bits) : Bool :=
  rows.all fun row => row == 0

/-- The rows form a symmetric matrix. -/
def isZeroPaddedSymmetric (rows : List Bits) (columnCount : ℕ) : Bool :=
  (fromRowIter rows columnCount).eq (fromRowIter rows columnCount).transposed

/-- The first rows of a matrix with twice as many rows, and the other ones. -/
def splitBlocks (qubitCount : ℕ) (m : AlignedBitMatrix) : List Bits × List Bits :=
  ((List.range qubitCount).map m.row,
    (List.range' qubitCount (2 * qubitCount - qubitCount)).map m.row)

/-- The reduced column form of a block column, when it is a unit block over a symmetric one. -/
def isReducedSymmetric (qubitCount : ℕ) (chain : List Bits) : Option AlignedBitMatrix :=
  let transposedRref := (fromRowIter chain qubitCount).transposed.echelonize.1.transposed
  let (topBlock, bottomBlock) := splitBlocks qubitCount transposedRref
  if isZeroPaddedIdentity topBlock && isZeroPaddedSymmetric bottomBlock qubitCount then
    some transposedRref
  else none

/-- Overwrite consecutive rows. -/
def assignRows : List Bits → ℕ → AlignedBitMatrix → AlignedBitMatrix
  | [], _, m => m
  | b :: rows, k, m => assignRows rows (k + 1) (m.setRow k b)

@[simp]
theorem rowCount_fromRowIter (rows : List Bits) (columns : ℕ) :
    (fromRowIter rows columns).rowCount = rows.length :=
  rowCount_fromBlocks rows columns

@[simp]
theorem columnCount_fromRowIter (rows : List Bits) (columns : ℕ) :
    (fromRowIter rows columns).columnCount = columns :=
  rfl

theorem row_fromRowIter (rows : List Bits) (columns i : ℕ) :
    (fromRowIter rows columns).row i = rows.getD i 0 :=
  row_fromBlocks rows columns i

@[simp]
theorem rowCount_transposed (m : AlignedBitMatrix) : m.transposed.rowCount = m.columnCount := by
  simp [transposed]

@[simp]
theorem columnCount_transposed (m : AlignedBitMatrix) : m.transposed.columnCount = m.rowCount :=
  rfl

variable {m : AlignedBitMatrix}

theorem row_transposed {j : ℕ} (hj : j < m.columnCount) : m.transposed.row j = m.column j := by
  simp [transposed, hj]

theorem get_transposed {j : ℕ} (hj : j < m.columnCount) (i : ℕ) :
    m.transposed.get j i = m.get i j := by
  rw [get, row_transposed hj, index_column]

theorem below_row_transposed (m : AlignedBitMatrix) (j : ℕ) :
    (m.transposed.row j).Below m.rowCount := by
  rcases Nat.lt_or_ge j m.columnCount with hj | hj
  · rw [row_transposed hj]
    exact below_column m j
  · rw [row_of_le (by simpa using hj)]
    exact below_zero _

theorem eq_eq_true_iff {m other : AlignedBitMatrix} : m.eq other = true ↔
      m.rowCount = other.rowCount ∧ m.columnCount = other.columnCount ∧
        ∀ i, i < m.rowCount → ∀ j, j < m.columnCount → m.get i j = other.get i j := by
  simp [eq, and_assoc]

variable {rows : List Bits}

theorem isZeroPaddedIdentity_iff {n : ℕ} (hlength : rows.length = n) :
    isZeroPaddedIdentity rows = true ↔ ∀ i, i < n → rows.getD i 0 = unit i := by
  unfold isZeroPaddedIdentity
  rw [all_eq_true]
  constructor
  · intro h i hi
    have hentry : (rows.getD i 0, i) ∈ rows.zipIdx := by
      rw [List.getD_eq_getElem _ _ (by omega)]
      exact List.mk_mem_zipIdx_iff_getElem?.mpr (getElem?_eq_getElem (by omega))
    exact isUnit_eq_true_iff.mp (h _ hentry)
  · rintro h ⟨b, i⟩ hmem
    obtain ⟨hi, rfl⟩ := List.getElem?_eq_some_iff.mp (List.mk_mem_zipIdx_iff_getElem?.mp hmem)
    have hrow := h i (by omega)
    rw [List.getD_eq_getElem _ _ hi] at hrow
    exact isUnit_eq_true_iff.mpr hrow

theorem areZeroRows_iff {n : ℕ} (hlength : rows.length = n) :
    areZeroRows rows = true ↔ ∀ i, i < n → rows.getD i 0 = 0 := by
  unfold areZeroRows
  simp only [all_eq_true, beq_iff_eq]
  constructor
  · intro h i hi
    rw [List.getD_eq_getElem _ _ (by omega)]
    exact h _ (getElem_mem _)
  · intro h b hb
    obtain ⟨i, hi, rfl⟩ := mem_iff_getElem.mp hb
    have hrow := h i (by omega)
    rwa [List.getD_eq_getElem _ _ hi] at hrow

theorem isZeroPaddedSymmetric_iff {n : ℕ} (hlength : rows.length = n) :
    isZeroPaddedSymmetric rows n = true ↔
      ∀ i, i < n → ∀ j, j < n → (rows.getD i 0).index j = (rows.getD j 0).index i := by
  unfold isZeroPaddedSymmetric
  rw [eq_eq_true_iff, rowCount_transposed, columnCount_transposed, rowCount_fromRowIter,
    columnCount_fromRowIter, hlength]
  have hget : ∀ i, i < n → ∀ j, ((fromRowIter rows n).get i j =
      (fromRowIter rows n).transposed.get i j ↔
        (rows.getD i 0).index j = (rows.getD j 0).index i) := by
    intro i hi j
    rw [get_transposed (by simpa using hi), get, get, row_fromRowIter, row_fromRowIter]
  constructor
  · rintro ⟨-, -, h⟩ i hi j hj
    exact (hget i hi j).mp (h i hi j hj)
  · intro h
    exact ⟨rfl, rfl, fun i hi j hj => (hget i hi j).mpr (h i hi j hj)⟩

@[simp]
theorem rowCount_assignRows (rows : List Bits) (k : ℕ) (m : AlignedBitMatrix) :
    (assignRows rows k m).rowCount = m.rowCount := by
  induction rows generalizing k m with
  | nil => rfl
  | cons b rows ih => exact ih (k + 1) (m.setRow k b)

@[simp]
theorem columnCount_assignRows (rows : List Bits) (k : ℕ) (m : AlignedBitMatrix) :
    (assignRows rows k m).columnCount = m.columnCount := by
  induction rows generalizing k m with
  | nil => rfl
  | cons b rows ih => exact ih (k + 1) (m.setRow k b)

theorem row_assignRows {k : ℕ} (h : k + rows.length ≤ m.rowCount) (j : ℕ) :
    (assignRows rows k m).row j =
      if k ≤ j ∧ j < k + rows.length then rows.getD (j - k) 0 else m.row j := by
  induction rows generalizing k m with
  | nil =>
    rw [length_nil, if_neg (by omega)]
    rfl
  | cons b rows ih =>
    rw [length_cons] at h
    rw [assignRows, ih (by rw [rowCount_setRow]; omega), row_setRow (by omega), length_cons]
    rcases Nat.lt_trichotomy j k with hj | rfl | hj
    · rw [if_neg (by omega), if_neg (by omega), if_neg (by omega)]
    · rw [if_neg (by omega), if_pos rfl, if_pos (by omega), Nat.sub_self, getD_cons_zero]
    · obtain ⟨i, rfl⟩ := Nat.exists_eq_add_of_lt hj
      by_cases hlt : k + i + 1 < k + 1 + rows.length
      · rw [if_pos (by omega), if_pos (by omega), show k + i + 1 - (k + 1) = i by omega,
          show k + i + 1 - k = i + 1 by omega, getD_cons_succ]
      · rw [if_neg (by omega), if_neg (by omega), if_neg (by omega)]

section Reduced

variable {n : ℕ} {chain : List Bits}

/-- The rows of the matrix that is reduced: one row for each column of the block column. -/
def chainRows (n : ℕ) (chain : List Bits) : ℕ → Bits :=
  (fromRowIter chain n).transposed.row

/-- The reduced matrix. -/
def chainRref (n : ℕ) (chain : List Bits) : AlignedBitMatrix :=
  (fromRowIter chain n).transposed.echelonize.1

theorem chainRref_eq (n : ℕ) (chain : List Bits) :
    chainRref n chain = (EchelonForm.new (fromRowIter chain n).transposed).matrix := by
  unfold chainRref
  rw [echelonize_eq]

theorem rowCount_chainRref (n : ℕ) (chain : List Bits) : (chainRref n chain).rowCount = n := by
  rw [chainRref_eq, (eliminated_new _).transforms.rowCount, rowCount_transposed,
    columnCount_fromRowIter]

theorem columnCount_chainRref (n : ℕ) (chain : List Bits) :
    (chainRref n chain).columnCount = chain.length := by
  rw [chainRref_eq, (eliminated_new _).transforms.columnCount, columnCount_transposed,
    rowCount_fromRowIter]

theorem below_row_chainRref (n : ℕ) (chain : List Bits) (i : ℕ) :
    ((chainRref n chain).row i).Below chain.length := by
  rw [chainRref_eq, (eliminated_new _).transforms.combine]
  refine below_combine _ fun j _ => ?_
  have hbelow := below_row_transposed (fromRowIter chain n) j
  rwa [rowCount_fromRowIter] at hbelow

theorem rowSpace_chainRref (n : ℕ) (chain : List Bits) :
    rowSpace n (chainRref n chain).row = rowSpace n (chainRows n chain) := by
  have hspace := (eliminated_new (fromRowIter chain n).transposed).rowSpace_eq
  rw [rowCount_transposed, columnCount_fromRowIter, columnCount_transposed, rowCount_fromRowIter,
    ← chainRref_eq] at hspace
  have hrref : (fun i => Bits.low chain.length ((chainRref n chain).row i)) =
      (chainRref n chain).row := by
    funext i
    exact low_eq_self (below_row_chainRref n chain i)
  have hrows : (fun i => Bits.low chain.length ((fromRowIter chain n).transposed.row i)) =
      chainRows n chain := by
    funext i
    have hbelow := below_row_transposed (fromRowIter chain n) i
    rw [rowCount_fromRowIter] at hbelow
    exact low_eq_self hbelow
  rwa [hrref, hrows] at hspace

theorem isReducedSymmetric_eq_some_iff (hchain : chain.length = 2 * n) :
    isReducedSymmetric n chain = some m ↔ (∀ q, q < n → (chainRref n chain).column q = unit q) ∧
        (∀ i, i < n → ∀ j, j < n →
          (chainRref n chain).get j (n + i) = (chainRref n chain).get i (n + j)) ∧
          m = (chainRref n chain).transposed := by
  have hcolumns := columnCount_chainRref n chain
  have htop : isZeroPaddedIdentity (splitBlocks n (chainRref n chain).transposed).1 = true ↔
      ∀ q, q < n → (chainRref n chain).column q = unit q := by
    have hlength : (splitBlocks n (chainRref n chain).transposed).1.length = n := by
      simp [splitBlocks]
    rw [isZeroPaddedIdentity_iff hlength]
    refine forall₂_congr fun q hq => ?_
    rw [List.getD_eq_getElem _ _ (by omega)]
    simp only [splitBlocks, getElem_map, getElem_range]
    rw [row_transposed (by omega)]
  have hbottom : isZeroPaddedSymmetric (splitBlocks n (chainRref n chain).transposed).2 n = true ↔
      ∀ i, i < n → ∀ j, j < n →
        (chainRref n chain).get j (n + i) = (chainRref n chain).get i (n + j) := by
    have hlength : (splitBlocks n (chainRref n chain).transposed).2.length = n := by
      simp only [splitBlocks, length_map, length_range']
      omega
    have hrow : ∀ i, i < n → (splitBlocks n (chainRref n chain).transposed).2.getD i 0 =
        (chainRref n chain).column (n + i) := by
      intro i hi
      rw [List.getD_eq_getElem _ _ (by omega)]
      simp only [splitBlocks, getElem_map, getElem_range', one_mul]
      rw [row_transposed (by omega)]
    rw [isZeroPaddedSymmetric_iff hlength]
    refine forall₂_congr fun i hi => forall₂_congr fun j hj => ?_
    rw [hrow i hi, hrow j hj, index_column, index_column]
  change (if (isZeroPaddedIdentity (splitBlocks n (chainRref n chain).transposed).1 &&
    isZeroPaddedSymmetric (splitBlocks n (chainRref n chain).transposed).2 n) = true then
      some (chainRref n chain).transposed else none) = some m ↔ _
  rw [Option.ite_none_right_eq_some, Bool.and_eq_true, htop, hbottom, Option.some_inj, and_assoc,
    eq_comm (a := m)]

theorem isReducedSymmetric_spec (hchain : chain.length = 2 * n)
    (h : isReducedSymmetric n chain = some m) : ∃ S : ℕ → Bits, (∀ i, i < n → (S i).Below n) ∧
      (∀ i, i < n → ∀ j, j < n → (S i).index j = (S j).index i) ∧
      (∀ i, i < n → append n (unit i) (S i) ∈ rowSpace n (chainRows n chain)) ∧
      ∀ q, q < n → m.row (n + q) = S q := by
  obtain ⟨htop, hsym, rfl⟩ := (isReducedSymmetric_eq_some_iff hchain).mp h
  have hbelow := below_row_chainRref n chain
  have hcolumns := columnCount_chainRref n chain
  have hS : ∀ i, (shiftDown n ((chainRref n chain).row i)).Below n := by
    intro i
    rw [below_iff]
    intro j hj
    rw [index_shiftDown, (hbelow i).index_eq_false (by omega)]
  refine ⟨fun i => shiftDown n ((chainRref n chain).row i), fun i _ => hS i, ?_, ?_, ?_⟩
  · intro i hi j hj
    rw [index_shiftDown, index_shiftDown]
    exact hsym j hj i hi
  · intro i hi
    have hrow : append n (unit i) (shiftDown n ((chainRref n chain).row i)) =
        (chainRref n chain).row i := by
      refine ext_index fun j => ?_
      rw [index_append (below_unit.mpr hi), index_shiftDown]
      rcases Nat.lt_or_ge j n with hj | hj
      · have hentry := index_column (chainRref n chain) i j
        rw [htop j hj, index_unit, get] at hentry
        rw [if_pos hj, ← hentry, index_unit]
        simp [eq_comm]
      · rw [if_neg (by omega), Nat.add_sub_cancel' hj]
    rw [hrow, ← rowSpace_chainRref]
    exact row_mem_rowSpace _ hi
  · intro q hq
    rw [row_transposed (by omega)]
    refine ext_index fun j => ?_
    rw [index_column, index_shiftDown]
    rcases Nat.lt_or_ge j n with hj | hj
    · exact hsym q hq j hj
    · rw [get_eq_false_of_le (by rw [rowCount_chainRref]; exact hj),
        (hbelow q).index_eq_false (by omega)]

theorem isReducedSymmetric_of_graph (hchain : chain.length = 2 * n) {S : ℕ → Bits}
    (hsym : ∀ i, i < n → ∀ j, j < n → (S i).index j = (S j).index i)
    (hmem : ∀ i, i < n → append n (unit i) (S i) ∈ rowSpace n (chainRows n chain)) :
    ∃ m, isReducedSymmetric n chain = some m := by
  have hgraph := rowSpace_graphRows_eq hmem
  have hreduced : Bits.Reduced (chainRref n chain).row
      (EchelonForm.new (fromRowIter chain n).transposed).pivots := by
    have h := (eliminated_new (fromRowIter chain n).transposed).reduced
    rw [columnCount_transposed, rowCount_fromRowIter, ← chainRref_eq] at h
    have hrref : (fun i => Bits.low chain.length ((chainRref n chain).row i)) =
        (chainRref n chain).row := by
      funext i
      exact low_eq_self (below_row_chainRref n chain i)
    rwa [hrref] at h
  have hlength := (eliminated_new (fromRowIter chain n).transposed).length_le
  rw [rowCount_transposed, columnCount_fromRowIter] at hlength
  obtain ⟨-, hrows⟩ := hreduced.unique (reduced_graphRows n S) hlength
    (length_range (n := n)).le ((rowSpace_chainRref n chain).trans hgraph.symm)
  have hget : ∀ i j, (chainRref n chain).get i j = (graphRows n S i).index j := by
    intro i j
    rw [get, hrows]
  refine ⟨_, (isReducedSymmetric_eq_some_iff hchain).mpr ⟨fun q hq => ?_, ?_, rfl⟩⟩
  · refine ext_index fun i => ?_
    rw [index_column, hget, index_graphRows_low S hq, index_unit]
    simp [eq_comm]
  · intro i hi j hj
    have hentry : ∀ i, i < n → ∀ j, (chainRref n chain).get i (n + j) = (S i).index j := by
      intro i hi j
      rw [hget, graphRows_of_lt S hi, index_append (below_unit.mpr hi),
        if_neg (by omega), Nat.add_sub_cancel_left]
    rw [hentry j hj, hentry i hi, hsym j hj i hi]

end Reduced

end AlignedBitMatrix

end QdkEc
