import QdkEc.Binar.MatrixOps
import QdkEc.Lib.OptionTraversal

/-!
# Resizing matrices of any shape

This module models `resize` with its failures.  The loop copies every old entry,
so a matrix that is cut must still have a row and a block for each of them.
-/

namespace QdkEc

namespace AlignedBitMatrix

/-- Copy one entry; `none` is a row or a block that the new matrix does not have. -/
def tryCopyEntry (m newMatrix : AlignedBitMatrix) (r c : ℕ) : Option AlignedBitMatrix :=
  if r < newMatrix.rowCount ∧ c < newMatrix.capacity then
    some (newMatrix.set r c (m.get r c))
  else none

/-- Copy all entries into a zero matrix of new dimensions; `none` is a failed index. -/
def tryResize (m : AlignedBitMatrix) (newRows newCols : ℕ) : Option AlignedBitMatrix :=
  if newRows = m.rowCount ∧ newCols = m.columnCount then some m
  else
    (List.range m.rowCount).foldlM (fun newMatrix r =>
      (List.range m.columnCount).foldlM (fun newMatrix c => m.tryCopyEntry newMatrix r c) newMatrix)
      (zeros newRows newCols)

/-- The matrix has the new dimensions, the entries in both shapes are kept and the others are
zero. -/
def ResizesEntries (m : AlignedBitMatrix) (newRows newCols : ℕ) : Prop :=
  ∃ resized, m.tryResize newRows newCols = some resized ∧
    resized.rowCount = newRows ∧ resized.columnCount = newCols ∧
      ∀ i j, i < newRows → j < newCols →
        resized.get i j = (decide (i < m.rowCount ∧ j < m.columnCount) && m.get i j)

/-- The entries of a matrix have the shape of another one. -/
def HasShape (newRows newCols : ℕ) (m : AlignedBitMatrix) : Prop :=
  m.rowCount = newRows ∧ m.columnCount = newCols

section Loop

variable {m : AlignedBitMatrix} {newRows newCols : ℕ}

theorem HasShape.copyRow {newMatrix : AlignedBitMatrix} (h : newMatrix.HasShape newRows newCols)
    (r columns : ℕ) : (copyRow m newMatrix r columns).HasShape newRows newCols :=
  List.foldlRecOn (motive := HasShape newRows newCols) _ _ h fun _ h' _ _ => h'

theorem foldlM_tryCopyEntry {newMatrix : AlignedBitMatrix} (h : newMatrix.HasShape newRows newCols)
    (r : ℕ) :
    (List.range m.columnCount).foldlM (fun newMatrix c => m.tryCopyEntry newMatrix r c) newMatrix =
      if m.columnCount = 0 ∨ r < newRows ∧ m.columnCount ≤ rowstrideOf newCols * blockBitLen then
        some (m.copyRow newMatrix r m.columnCount) else none := by
  rw [foldlM_eq_ite (I := HasShape newRows newCols)
    (P := fun c => r < newRows ∧ c < rowstrideOf newCols * blockBitLen)
    (g := fun newMatrix c => newMatrix.set r c (m.get r c))
    (fun c _ newMatrix' h' => by rw [tryCopyEntry, capacity, h'.1, h'.2]) (fun _ _ h' => h') h]
  refine if_congr ?_ rfl rfl
  constructor
  · intro hall
    rcases Nat.eq_zero_or_pos m.columnCount with hzero | hpos
    · exact Or.inl hzero
    · have hlast := hall (m.columnCount - 1) (List.mem_range.mpr (by omega))
      exact Or.inr ⟨hlast.1, by omega⟩
  · rintro (hzero | ⟨hr, hcolumns⟩) c hc
    · rw [hzero] at hc
      exact absurd hc (by simp)
    · exact ⟨hr, (List.mem_range.mp hc).trans_le hcolumns⟩

theorem forall_rows_iff : (∀ r ∈ List.range m.rowCount, m.columnCount = 0 ∨
      r < newRows ∧ m.columnCount ≤ rowstrideOf newCols * blockBitLen) ↔
        m.ResizeFits newRows newCols := by
  constructor
  · intro hall
    rcases Nat.eq_zero_or_pos m.rowCount with hzero | hpos
    · exact Or.inl hzero
    · have hlast := hall (m.rowCount - 1) (List.mem_range.mpr (by omega))
      exact Or.inr (hlast.imp_right fun hfits => ⟨by omega, hfits.2⟩)
  · rintro (hzero | hzero | ⟨hrows, hcolumns⟩) r hr
    · rw [hzero] at hr
      exact absurd hr (by simp)
    · exact Or.inl hzero
    · exact Or.inr ⟨(List.mem_range.mp hr).trans_le hrows, hcolumns⟩

theorem tryResize_eq : m.tryResize newRows newCols =
      if (newRows = m.rowCount ∧ newCols = m.columnCount) ∨ m.ResizeFits newRows newCols then
        some (m.resize newRows newCols) else none := by
  unfold tryResize resize
  by_cases hsame : newRows = m.rowCount ∧ newCols = m.columnCount
  · rw [if_pos hsame, if_pos hsame, if_pos (Or.inl hsame)]
  · rw [if_neg hsame, if_neg hsame, foldlM_eq_ite (I := HasShape newRows newCols)
      (g := fun newMatrix r => m.copyRow newMatrix r m.columnCount)
      (fun r _ newMatrix h => foldlM_tryCopyEntry h r) (fun newMatrix r h => h.copyRow r _)
        ⟨rowCount_zeros _ _, columnCount_zeros _ _⟩]
    exact if_congr (forall_rows_iff.trans (or_iff_right hsame).symm) rfl rfl

theorem get_foldl_copyRow (newCols : ℕ) (hfits : m.columnCount = 0 ∨ m.rowCount ≤ newRows) :
    let copied := (List.range m.rowCount).foldl
      (fun newMatrix r => m.copyRow newMatrix r m.columnCount) (zeros newRows newCols)
    copied.HasShape newRows newCols ∧
      ∀ i j, copied.get i j = (decide (i < m.rowCount ∧ j < m.columnCount) && m.get i j) := by
  rcases hfits with hzero | hrows
  · have hcopied : ∀ l : List ℕ, l.foldl
        (fun newMatrix r => m.copyRow newMatrix r m.columnCount) (zeros newRows newCols) =
          zeros newRows newCols := by
      intro l
      rw [hzero]
      exact List.foldl_fixed l
    rw [hcopied]
    refine ⟨⟨rowCount_zeros _ _, rfl⟩, fun i j => ?_⟩
    simp [get, hzero]
  · obtain ⟨hshape, hget⟩ := get_copyRows m (zeros newRows newCols)
      (show m.rowCount ≤ _ by simpa using hrows) m.columnCount
    refine ⟨⟨by simpa using hshape.1, hshape.2⟩, fun i j => ?_⟩
    rw [hget]
    by_cases hij : i < m.rowCount ∧ j < m.columnCount <;> simp [hij, get]

theorem resizesEntries_of_fits
    (hfits : (newRows = m.rowCount ∧ newCols = m.columnCount) ∨ m.ResizeFits newRows newCols) :
    m.ResizesEntries newRows newCols := by
  refine ⟨m.resize newRows newCols, by rw [tryResize_eq, if_pos hfits], ?_⟩
  unfold resize
  split_ifs with hsame
  · obtain ⟨rfl, rfl⟩ := hsame
    exact ⟨rfl, rfl, fun i j hi hj => by simp [hi, hj]⟩
  · have hcopied : m.columnCount = 0 ∨ m.rowCount ≤ newRows := by
      rcases (or_iff_right hsame).mp hfits with hzero | hzero | hrows
      · exact Or.inr (by omega)
      · exact Or.inl hzero
      · exact Or.inr hrows.1
    have hcopied := get_foldl_copyRow newCols hcopied
    exact ⟨hcopied.1.1, hcopied.1.2, fun i j _ _ => hcopied.2 i j⟩

/-- Resizing keeps the entries exactly when the shape is the old one, nothing is copied, or no row
is cut off and no column beyond the last block. -/
theorem resizesEntries_iff : m.ResizesEntries newRows newCols ↔
      (newRows = m.rowCount ∧ newCols = m.columnCount) ∨ m.ResizeFits newRows newCols := by
  refine ⟨fun hresizes => ?_, resizesEntries_of_fits⟩
  obtain ⟨resized, hresized, _⟩ := hresizes
  rw [tryResize_eq] at hresized
  by_contra hfits
  rw [if_neg hfits] at hresized
  cases hresized

/-- A matrix cannot be cut to one row. -/
theorem not_resizesEntries :
    ¬ ∀ (m : AlignedBitMatrix) (newRows newCols : ℕ), m.ResizesEntries newRows newCols := by
  intro hall
  obtain ⟨resized, hresized, _⟩ := hall (identity 2) 1 2
  have hnone : (identity 2).tryResize 1 2 = none := by decide
  cases hresized

end Loop

end AlignedBitMatrix

end QdkEc
