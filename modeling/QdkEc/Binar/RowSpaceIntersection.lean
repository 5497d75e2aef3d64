import QdkEc.Binar.EchelonSolve
import QdkEc.Lib.IndependentRows

/-!
# Intersections of row spaces

This module models stacking, submatrices and products of bit matrices, and the
intersection of two row spaces through the relations between the stacked rows.
-/

namespace QdkEc

open Bits List EchelonForm

namespace AlignedBitMatrix

/-- The rows of some matrices one after the other. -/
def rowStacked (matrices : List AlignedBitMatrix) : AlignedBitMatrix :=
  fromBlocks (matrices.flatMap fun matrix => (List.range matrix.rowCount).map matrix.row)
    ((matrices.getLast?.map columnCount).getD 0)

/-- The entries at some rows and columns. -/
def submatrix (m : AlignedBitMatrix) (rows columns : List ℕ) : AlignedBitMatrix :=
  fromBlocks (rows.map fun row =>
    Bits.fromIndices ((List.range columns.length).filter fun columnIndex =>
      m.get row (columns.getD columnIndex 0))) columns.length

/-- The matrix product: a row of the result is the sum of the rows on the right that the row on the
left selects. -/
def dot (m rhs : AlignedBitMatrix) : AlignedBitMatrix :=
  fromBlocks ((List.range m.rowCount).map fun i =>
    Bits.combine rhs.row (Bits.low m.columnCount (m.row i))) rhs.columnCount

/-- The vectors that the relations between the stacked rows give: the rows of the transform behind
the rank, cut to the rows of the first matrix and multiplied by it. -/
def relationProducts (m other : AlignedBitMatrix) : AlignedBitMatrix :=
  let echelon := EchelonForm.new (rowStacked [m, other])
  let rank := echelon.pivots.length
  let total := m.rowCount + other.rowCount
  let depRows := (List.range (total - rank)).map (rank + ·)
  let alphaCols := List.range m.rowCount
  let alphas := echelon.transform.submatrix depRows alphaCols
  alphas.dot m

def rowSpaceIntersectionWith (m other : AlignedBitMatrix) : AlignedBitMatrix :=
  if m.rowCount = 0 ∨ other.rowCount = 0 then zeros 0 m.columnCount
  else if (EchelonForm.new (rowStacked [m, other])).pivots.length =
      m.rowCount + other.rowCount then zeros 0 m.columnCount
  else
    let (result, pivots) := (relationProducts m other).echelonize
    result.submatrix (List.range pivots.length) (List.range result.columnCount)

section Built

variable (m other : AlignedBitMatrix)

theorem rowCount_rowStacked : (rowStacked [m, other]).rowCount = m.rowCount + other.rowCount := by
  simp [rowStacked]

theorem columnCount_rowStacked : (rowStacked [m, other]).columnCount = other.columnCount :=
  rfl

theorem row_rowStacked (i : ℕ) : (rowStacked [m, other]).row i =
      if i < m.rowCount then m.row i else other.row (i - m.rowCount) := by
  rw [rowStacked, row_fromBlocks, flatMap_cons, flatMap_cons, flatMap_nil,
    append_nil, getD_eq_getElem?_getD]
  split_ifs with hi
  · rw [getElem?_append_left (by simpa using hi)]
    simp [hi]
  · rw [getElem?_append_right (by simpa using hi), length_map, length_range]
    rcases Nat.lt_or_ge (i - m.rowCount) other.rowCount with hlt | hge
    · simp [hlt]
    · rw [row_of_le hge, getElem?_eq_none (by simpa using hge)]
      rfl

theorem rowCount_submatrix (rows columns : List ℕ) :
    (m.submatrix rows columns).rowCount = rows.length := by
  simp [submatrix]

theorem columnCount_submatrix (rows columns : List ℕ) :
    (m.submatrix rows columns).columnCount = columns.length :=
  rfl

theorem row_submatrix (rows : List ℕ) (n : ℕ) {k : ℕ} (hk : k < rows.length) :
    (m.submatrix rows (List.range n)).row k = Bits.low n (m.row rows[k]) := by
  refine ext_index fun j => ?_
  rw [submatrix, row_fromBlocks, getD_eq_getElem _ _ (by simpa using hk), getElem_map,
    index_fromIndices, index_low, Bool.eq_iff_iff, decide_eq_true_iff, mem_filter,
    mem_range, Bool.and_eq_true, decide_eq_true_iff]
  simp only [length_range]
  refine and_congr_right fun hj => ?_
  rw [getD_eq_getElem _ _ (by simpa using hj), getElem_range]
  rfl

theorem rowCount_dot : (m.dot other).rowCount = m.rowCount := by
  simp [dot]

theorem columnCount_dot : (m.dot other).columnCount = other.columnCount :=
  rfl

theorem row_dot {i : ℕ} (hi : i < m.rowCount) :
    (m.dot other).row i = Bits.combine other.row (Bits.low m.columnCount (m.row i)) := by
  rw [dot, row_fromBlocks, getD_eq_getElem _ _ (by simpa using hi), getElem_map, getElem_range]

end Built

/-- The rows have no bits beyond the last column. -/
def Clear (m : AlignedBitMatrix) : Prop :=
  ∀ i, (m.row i).Below m.columnCount

def entries (m : AlignedBitMatrix) (i : ℕ) : Bits :=
  Bits.low m.columnCount (m.row i)

theorem Clear.entries_eq {m : AlignedBitMatrix} (hm : m.Clear) : m.entries = m.row :=
  funext fun i => low_eq_self (hm i)

theorem entries_form {A : AlignedBitMatrix} {form : EchelonForm}
    (h : EchelonForm.Eliminated A form A.columnCount) (i : ℕ) :
    Bits.low A.columnCount (form.matrix.row i) = Bits.combine A.entries (form.transform.row i) := by
  rw [h.transforms.combine, low_combine]
  rfl

theorem basis_spec (m : AlignedBitMatrix) :
    let form := EchelonForm.new m
    let basis := form.matrix.submatrix (List.range form.pivots.length)
      (List.range form.matrix.columnCount)
    Bits.Reduced basis.row form.pivots ∧ basis.rowCount = form.pivots.length ∧
      rowSpace form.pivots.length basis.row = rowSpace m.rowCount m.entries := by
  have h := eliminated_new m
  generalize EchelonForm.new m = form at *
  have hrow : (form.matrix.submatrix (List.range form.pivots.length)
      (List.range form.matrix.columnCount)).row =
        fun i => Bits.low m.columnCount (form.matrix.row i) := by
    funext k
    rcases Nat.lt_or_ge k form.pivots.length with hk | hk
    · rw [row_submatrix _ _ _ (by simpa using hk), getElem_range, h.transforms.columnCount]
    · rw [h.reduced.zero k hk, row_of_le]
      rwa [rowCount_submatrix, length_range]
  dsimp only
  rw [hrow]
  refine ⟨h.reduced, by rw [rowCount_submatrix, length_range], ?_⟩
  rw [← h.reduced.rowSpace_eq_rowSpace_length h.length_le]
  exact h.rowSpace_eq

section Intersection

variable {m other : AlignedBitMatrix} (hcolumns : m.columnCount = other.columnCount)

section Stacked

include hcolumns

theorem combine_entries_rowStacked (t : Bits) : Bits.combine (rowStacked [m, other]).entries t =
      Bits.combine m.entries (Bits.low m.rowCount t) +
        Bits.combine other.entries (shiftDown m.rowCount t) := by
  rw [← combine_split]
  congr 1
  funext i
  rw [entries, columnCount_rowStacked, row_rowStacked]
  split_ifs
  · rw [entries, hcolumns]
  · rfl

theorem combine_relation {j : ℕ}
    (hj : (EchelonForm.new (rowStacked [m, other])).pivots.length ≤ j) : Bits.combine m.entries
        (Bits.low m.rowCount ((EchelonForm.new (rowStacked [m, other])).transform.row j)) =
      Bits.combine other.entries (shiftDown m.rowCount
          ((EchelonForm.new (rowStacked [m, other])).transform.row j)) := by
  have h := eliminated_new (rowStacked [m, other])
  have hzero := h.reduced.zero j hj
  rw [entries_form h, combine_entries_rowStacked hcolumns] at hzero
  exact add_eq_zero_iff.mp hzero

theorem exists_relation {v : Bits} (hv : v ∈ rowSpace m.rowCount m.entries)
    (hv' : v ∈ rowSpace other.rowCount other.entries) :
    ∃ c : Bits, c.Below (m.rowCount + other.rowCount) ∧
      (∀ j, c.index j = true → (EchelonForm.new (rowStacked [m, other])).pivots.length ≤ j) ∧
        v = Bits.combine (fun j => Bits.combine m.entries
          (Bits.low m.rowCount ((EchelonForm.new (rowStacked [m, other])).transform.row j))) c := by
  obtain ⟨s, hs, rfl⟩ := hv
  obtain ⟨t, ht, hst⟩ := hv'
  have h := eliminated_new (rowStacked [m, other])
  have hlow : Bits.low m.rowCount (s + t.shiftUp m.rowCount) = s := by
    refine ext_index fun j => ?_
    rcases Nat.lt_or_ge j m.rowCount with hj | hj
    · rw [index_low, index_add, index_shiftUp, decide_eq_true hj,
        decide_eq_false (by omega), Bool.true_and, Bool.false_and, Bool.xor_false]
    · rw [(below_low _ _).index_eq_false hj, hs.index_eq_false hj]
  have hhigh : shiftDown m.rowCount (s + t.shiftUp m.rowCount) = t := by
    refine ext_index fun j => ?_
    simp [hs.index_eq_false (Nat.le_add_right m.rowCount j)]
  have hbelow : (s + t.shiftUp m.rowCount).Below (rowStacked [m, other]).rowCount := by
    rw [rowCount_rowStacked, below_iff]
    intro j hj
    rw [index_add, hs.index_eq_false (by omega), index_shiftUp,
      ht.index_eq_false (by omega), Bool.and_false, Bool.xor_false]
  obtain ⟨c, hc, hcombine⟩ := h.transforms.dual.exists_combine hbelow
  have hzero : Bits.combine (fun j => Bits.low (rowStacked [m, other]).columnCount
      ((EchelonForm.new (rowStacked [m, other])).matrix.row j)) c = 0 := by
    rw [funext (entries_form h), ← combine_combine, hcombine,
      combine_entries_rowStacked hcolumns, hlow, hhigh, hst, add_self]
  refine ⟨c, by rwa [rowCount_rowStacked] at hc, fun j hj => ?_, ?_⟩
  · by_contra hlt
    rw [← h.reduced.index_combine_pivot c (Nat.lt_of_not_le hlt), hzero, index_zero] at hj
    cases hj
  · rw [← combine_combine, ← low_combine, hcombine, hlow]

end Stacked

theorem rowCount_relationProducts :
    (relationProducts m other).rowCount = m.rowCount + other.rowCount -
      (EchelonForm.new (rowStacked [m, other])).pivots.length := by
  rw [relationProducts, rowCount_dot, rowCount_submatrix, length_map, length_range]

theorem columnCount_relationProducts : (relationProducts m other).columnCount = m.columnCount := by
  rw [relationProducts, columnCount_dot]

theorem entries_relationProducts {k : ℕ} (hk : k < (relationProducts m other).rowCount) :
    (relationProducts m other).entries k = Bits.combine m.entries (Bits.low m.rowCount
      ((EchelonForm.new (rowStacked [m, other])).transform.row
        ((EchelonForm.new (rowStacked [m, other])).pivots.length + k))) := by
  rw [rowCount_relationProducts] at hk
  rw [entries, columnCount_relationProducts, relationProducts,
    row_dot _ _ (by rw [rowCount_submatrix]; simpa using hk), columnCount_submatrix,
    length_range, row_submatrix _ _ _ (by simpa using hk), getElem_map,
    getElem_range, low_low (le_refl _), low_combine]
  rfl

include hcolumns

theorem rowSpace_relationProducts :
    rowSpace (relationProducts m other).rowCount (relationProducts m other).entries =
      rowSpace m.rowCount m.entries ⊓ rowSpace other.rowCount other.entries := by
  refine le_antisymm (rowSpace_le.mpr fun k hk => ?_) ?_
  · rw [entries_relationProducts hk]
    refine Submodule.mem_inf.mpr ⟨mem_rowSpace.mpr ⟨_, below_low _ _, rfl⟩, ?_⟩
    rw [combine_relation hcolumns (Nat.le_add_right _ k)]
    refine mem_rowSpace.mpr ⟨_, ?_, rfl⟩
    rw [rowCount_relationProducts] at hk
    have hbelow := (eliminated_new
      (rowStacked [m, other])).transforms.dual.below_left _
        (show (EchelonForm.new (rowStacked [m, other])).pivots.length + k < _ by
          rw [rowCount_rowStacked]
          omega)
    rw [rowCount_rowStacked] at hbelow
    rw [below_iff]
    intro j hj
    rw [index_shiftDown, hbelow.index_eq_false (by omega)]
  · rintro v ⟨hv, hv'⟩
    obtain ⟨c, hc, hlarge, rfl⟩ := exists_relation hcolumns hv hv'
    refine combine_mem fun j hj => ?_
    have hle := hlarge j hj
    have hlt := hc.lt_of_index hj
    have hk : j - (EchelonForm.new (rowStacked [m, other])).pivots.length <
        (relationProducts m other).rowCount := by
      rw [rowCount_relationProducts]
      omega
    have hmem := row_mem_rowSpace (relationProducts m other).entries hk
    rwa [entries_relationProducts hk, Nat.add_sub_cancel' hle] at hmem

omit hcolumns in
theorem zeros_spec (n : ℕ) (htrivial : ∀ v ∈ Bits.rowSpace m.rowCount m.entries,
      v ∈ Bits.rowSpace other.rowCount other.entries → v = 0) :
    ∃ pivots, Bits.Reduced (zeros 0 n).row pivots ∧ (zeros 0 n).rowCount = pivots.length ∧
      Bits.rowSpace pivots.length (zeros 0 n).row =
        Bits.rowSpace m.rowCount m.entries ⊓ Bits.rowSpace other.rowCount other.entries := by
  refine ⟨[], ⟨List.Pairwise.nil, ?_, ?_, fun i _ => row_zeros 0 n i⟩, rowCount_zeros 0 n, ?_⟩
  · intro i hi
    cases hi
  · intro i j hj
    cases hj
  · refine Submodule.ext fun v => ⟨?_, ?_⟩
    · rintro ⟨t, _, rfl⟩
      rw [combine_eq_zero _ fun i _ => row_zeros 0 n i]
      exact Submodule.zero_mem _
    · rintro ⟨hv, hv'⟩
      rw [htrivial v hv hv']
      exact Submodule.zero_mem _

theorem rowSpaceIntersectionWith_entries :
    ∃ pivots, Bits.Reduced (m.rowSpaceIntersectionWith other).row pivots ∧
      (m.rowSpaceIntersectionWith other).rowCount = pivots.length ∧
        rowSpace pivots.length (m.rowSpaceIntersectionWith other).row =
          rowSpace m.rowCount m.entries ⊓ rowSpace other.rowCount other.entries := by
  have hbottom : ∀ {g : ℕ → Bits} {v : Bits}, v ∈ rowSpace 0 g → v = 0 := by
    rintro g _ ⟨t, ht, rfl⟩
    refine combine_eq_zero _ fun i hi => ?_
    exact absurd (ht.lt_of_index hi) (Nat.not_lt_zero i)
  unfold rowSpaceIntersectionWith
  split_ifs with hrows hrank
  · refine zeros_spec _ fun v hv hv' => ?_
    rcases hrows with hrows | hrows
    · rw [hrows] at hv
      exact hbottom hv
    · rw [hrows] at hv'
      exact hbottom hv'
  · refine zeros_spec _ fun v hv hv' => ?_
    obtain ⟨c, hc, hlarge, rfl⟩ := exists_relation hcolumns hv hv'
    refine combine_eq_zero _ fun j hj => ?_
    have hlt := hc.lt_of_index hj
    have hle := hlarge j hj
    omega
  · have hbasis := basis_spec (relationProducts m other)
    rw [rowSpace_relationProducts hcolumns] at hbasis
    rw [echelonize_eq]
    exact ⟨_, hbasis⟩

theorem rowSpaceIntersectionWith_spec (hm : m.Clear) (hother : other.Clear) :
    ∃ pivots, Bits.Reduced (m.rowSpaceIntersectionWith other).row pivots ∧
      (m.rowSpaceIntersectionWith other).rowCount = pivots.length ∧
        rowSpace pivots.length (m.rowSpaceIntersectionWith other).row =
          rowSpace m.rowCount m.row ⊓ rowSpace other.rowCount other.row := by
  rw [← hm.entries_eq, ← hother.entries_eq]
  exact rowSpaceIntersectionWith_entries hcolumns

omit hcolumns in
theorem columnCount_rowSpaceIntersectionWith :
    (m.rowSpaceIntersectionWith other).columnCount = m.columnCount := by
  unfold rowSpaceIntersectionWith
  split_ifs
  · rfl
  · rfl
  · rw [echelonize_eq, columnCount_submatrix, length_range,
      (eliminated_new _).transforms.columnCount, columnCount_relationProducts]

/-- The rows of the result are independent and span the intersection of the row spaces. -/
theorem rowSpaceIntersectionWith_basis :
    (m.rowSpaceIntersectionWith other).columnCount = m.columnCount ∧
      Bits.Independent (m.rowSpaceIntersectionWith other).rowCount
        (m.rowSpaceIntersectionWith other).row ∧
        Bits.rowSpace (m.rowSpaceIntersectionWith other).rowCount
          (m.rowSpaceIntersectionWith other).row =
          Bits.rowSpace m.rowCount m.entries ⊓ Bits.rowSpace other.rowCount other.entries := by
  obtain ⟨pivots, hreduced, hcount, hspace⟩ := rowSpaceIntersectionWith_entries hcolumns
  rw [hcount]
  exact ⟨columnCount_rowSpaceIntersectionWith, hreduced.independent, hspace⟩

omit hcolumns in
theorem rowSpaceIntersectionWith_basis_ones :
    ((ones 2 3).rowSpaceIntersectionWith (identity 3)).columnCount = (ones 2 3).columnCount ∧
      Bits.Independent ((ones 2 3).rowSpaceIntersectionWith (identity 3)).rowCount
        ((ones 2 3).rowSpaceIntersectionWith (identity 3)).row ∧
        Bits.rowSpace ((ones 2 3).rowSpaceIntersectionWith (identity 3)).rowCount
          ((ones 2 3).rowSpaceIntersectionWith (identity 3)).row =
          Bits.rowSpace (ones 2 3).rowCount (ones 2 3).entries ⊓
            Bits.rowSpace (identity 3).rowCount (identity 3).entries :=
  rowSpaceIntersectionWith_basis rfl

end Intersection

end AlignedBitMatrix

end QdkEc
