import QdkEc.Binar.BitVectors
import QdkEc.Binar.MatrixOps

/-!
# Matrices as raw words

This module models `AlignedBitMatrix::as_words` and `from_words`.  The words are
those of the stored rows in the order of storage, while the entries of a matrix
are read through its row pointers, so the words describe the matrix exactly when
the two orders agree on its entries.
-/

namespace QdkEc

open Option List

namespace AlignedBitMatrix

def rowWords (columnCount : ℕ) (b : Bits) : List Word :=
  (List.range (rowstrideOf columnCount * bitBlockWordCount)).map fun k =>
    BitVec.ofNat 64 (b.shiftDown (64 * k)).mask

/-- The words of all stored rows, in the order of storage. -/
def asWords (m : AlignedBitMatrix) : List Word :=
  m.blocks.flatMap (rowWords m.columnCount)

/-- Rebuild a matrix from words; `none` is the failed assertion on their number or the division by
a row of no blocks. -/
def fromWords (words : List Word) (columnCount : ℕ) : Option AlignedBitMatrix :=
  if words.length % bitBlockWordCount = 0 then
    let rowstride := rowstrideOf columnCount
    if rowstride = 0 then none
    else
      let blockCount := words.length / bitBlockWordCount
      let rowCount := blockCount / rowstride
      let storedStride := blockCount / rowCount
      some (fromBlocks ((List.range rowCount).map fun r =>
        Bits.ofWords ((words.drop (r * (storedStride * bitBlockWordCount))).take
          (rowstride * bitBlockWordCount))) columnCount)
  else none

/-- The words of a matrix give back a matrix equal to it. -/
def RoundTrips (m : AlignedBitMatrix) : Prop :=
  ∃ restored, fromWords m.asWords m.columnCount = some restored ∧ restored.eq m = true

/-- Every logical row has the entries of the stored row in its position. -/
def StoredInOrder (m : AlignedBitMatrix) : Prop :=
  ∀ i, i < m.rowCount → ∀ j, j < m.columnCount → (m.blocks.getD i 0).index j = m.get i j

instance (m : AlignedBitMatrix) : Decidable m.StoredInOrder :=
  inferInstanceAs (Decidable (∀ i, i < m.rowCount → ∀ j, j < m.columnCount → _))

variable (columnCount : ℕ)

@[simp]
theorem length_rowWords (b : Bits) :
    (rowWords columnCount b).length = rowstrideOf columnCount * bitBlockWordCount := by
  simp [rowWords]

theorem le_rowstrideOf : columnCount ≤ rowstrideOf columnCount * blockBitLen := by
  unfold rowstrideOf blockBitLen
  split_ifs with h
  · omega
  · omega

theorem rowstrideOf_eq_zero_iff {columnCount : ℕ} :
    rowstrideOf columnCount = 0 ↔ columnCount = 0 := by
  have hle := le_rowstrideOf columnCount
  constructor
  · intro h
    rw [h] at hle
    omega
  · rintro rfl
    rfl

theorem ofWords_rowWords (b : Bits) :
    Bits.ofWords (rowWords columnCount b) = Bits.low (rowstrideOf columnCount * blockBitLen) b := by
  refine Bits.ext_index fun i => ?_
  have hwords : rowstrideOf columnCount * blockBitLen =
      rowstrideOf columnCount * bitBlockWordCount * 64 := by
    unfold blockBitLen bitBlockWordCount
    omega
  rw [Bits.index_ofWords, Bits.index_low, hwords]
  by_cases hi : i < rowstrideOf columnCount * bitBlockWordCount * 64
  · have hword : i / 64 < (rowWords columnCount b).length := by
      rw [length_rowWords]
      omega
    rw [getD_eq_getElem _ _ hword, decide_eq_true hi, Bool.true_and]
    have hpos : 64 * (i / 64) + i % 64 = i := by omega
    simp only [rowWords, getElem_map, getElem_range, BitVec.getLsbD_ofNat]
    rw [decide_eq_true (Nat.mod_lt i (by decide : 0 < 64)), Bool.true_and]
    exact (Bits.index_shiftDown _ _ b).trans (by rw [hpos])
  · have hword : (rowWords columnCount b).length ≤ i / 64 := by
      rw [length_rowWords]
      omega
    rw [getD_eq_default _ _ hword, decide_eq_false hi]
    simp

section Chunks

variable {α β : Type*} {f : α → List β} {width : ℕ}

theorem length_flatMap_of_width (hf : ∀ a, (f a).length = width) (l : List α) :
    (l.flatMap f).length = l.length * width := by
  induction l with
  | nil => simp
  | cons a l ih =>
    rw [flatMap_cons, length_append, hf, ih, length_cons]
    ring

theorem take_drop_flatMap (hf : ∀ a, (f a).length = width) {l : List α} {r : ℕ}
    (hr : r < l.length) : ((l.flatMap f).drop (r * width)).take width = f l[r] := by
  induction l generalizing r with
  | nil => simp at hr
  | cons a l ih =>
    rw [flatMap_cons]
    cases r with
    | zero =>
      rw [Nat.zero_mul, drop_zero, take_left' (hf a)]
      rfl
    | succ r =>
      have hdrop : (r + 1) * width = (f a).length + r * width := by
        rw [hf]
        ring
      rw [hdrop, drop_length_add_append, ih (by simpa using hr)]
      rfl

end Chunks

section RoundTrip

variable {m : AlignedBitMatrix}

theorem fromWords_asWords (hcolumns : 0 < m.columnCount) : fromWords m.asWords m.columnCount =
      some (fromBlocks (m.blocks.map (Bits.low m.capacity)) m.columnCount) := by
  have hstride : 0 < rowstrideOf m.columnCount := by
    have : rowstrideOf m.columnCount = 0 ↔ _ := rowstrideOf_eq_zero_iff
    omega
  have hlength : m.asWords.length =
      m.blocks.length * rowstrideOf m.columnCount * bitBlockWordCount := by
    rw [asWords, length_flatMap_of_width (length_rowWords m.columnCount), mul_assoc]
  have hblocks : m.asWords.length / bitBlockWordCount =
      m.blocks.length * rowstrideOf m.columnCount := by
    rw [hlength]
    exact Nat.mul_div_cancel _ (by decide)
  have hrows : m.asWords.length / bitBlockWordCount / rowstrideOf m.columnCount =
      m.blocks.length := by
    rw [hblocks]
    exact Nat.mul_div_cancel _ hstride
  unfold fromWords
  rw [if_pos (by rw [hlength]; exact Nat.mul_mod_left _ _)]
  dsimp only
  rw [if_neg hstride.ne', hrows, hblocks]
  congr 2
  refine ext_getElem (by simp) fun r hr _ => ?_
  have hr : r < m.blocks.length := by simpa using hr
  have hstored : m.blocks.length * rowstrideOf m.columnCount / m.blocks.length =
      rowstrideOf m.columnCount :=
    Nat.mul_div_cancel_left _ (by omega)
  simp only [getElem_map, getElem_range]
  rw [hstored, asWords, take_drop_flatMap (length_rowWords m.columnCount) hr, ofWords_rowWords]
  rfl

theorem fromWords_of_no_columns (words : List Word) {columnCount : ℕ} (hcolumns : columnCount = 0) :
    fromWords words columnCount = none := by
  unfold fromWords
  rw [if_pos (rowstrideOf_eq_zero_iff.mpr hcolumns)]
  split_ifs <;> rfl

theorem roundTrips_iff (hstores : m.StoresRows) :
    m.RoundTrips ↔ 0 < m.columnCount ∧ m.StoredInOrder := by
  rcases Nat.eq_zero_or_pos m.columnCount with hcolumns | hcolumns
  · constructor
    · rintro ⟨restored, hrestored, _⟩
      rw [fromWords_of_no_columns _ hcolumns] at hrestored
      exact absurd hrestored (by simp)
    · rintro ⟨hpos, _⟩
      omega
  · have hentry : ∀ i j, j < m.columnCount →
        (fromBlocks (m.blocks.map (Bits.low m.capacity)) m.columnCount).get i j =
          (m.blocks.getD i 0).index j := by
      intro i j hj
      have hcapacity : j < m.capacity := hj.trans_le (le_rowstrideOf m.columnCount)
      rw [get, row_fromBlocks, getD_eq_getElem?_getD, getElem?_map, getD_eq_getElem?_getD]
      cases m.blocks[i]? with
      | none => rfl
      | some b => simp [hcapacity]
    have hlength : (fromBlocks (m.blocks.map (Bits.low m.capacity)) m.columnCount).rowCount =
        m.rowCount := by
      rw [rowCount_fromBlocks, length_map, hstores]
    unfold RoundTrips
    rw [fromWords_asWords hcolumns]
    constructor
    · rintro ⟨restored, hrestored, heq⟩
      obtain rfl := some_inj.mp hrestored
      obtain ⟨_, _, hentries⟩ := eq_eq_true_iff.mp heq
      refine ⟨hcolumns, fun i hi j hj => ?_⟩
      rw [← hentry i j hj]
      exact hentries i (hlength ▸ hi) j hj
    · rintro ⟨_, horder⟩
      refine ⟨_, rfl, eq_eq_true_iff.mpr ⟨hlength, rfl, fun i hi j hj => ?_⟩⟩
      rw [hentry i j hj]
      exact horder i (hlength ▸ hi) j hj

end RoundTrip

/-- Every row pointer is at its own row. -/
def PointersInOrder (m : AlignedBitMatrix) : Prop :=
  m.rows = List.range m.blocks.length

section PointersInOrder

variable {m : AlignedBitMatrix}

theorem pointersInOrder_fromBlocks (blocks : List Bits) (columnCount : ℕ) :
    (fromBlocks blocks columnCount).PointersInOrder :=
  rfl

theorem PointersInOrder.setRow (h : m.PointersInOrder) (i : ℕ) (b : Bits) :
    (m.setRow i b).PointersInOrder := by
  rw [PointersInOrder, length_blocks_setRow]
  exact h

theorem PointersInOrder.storedInOrder (h : m.PointersInOrder) : m.StoredInOrder := by
  intro i hi j _
  have hi : i < m.blocks.length := by rwa [rowCount, h, length_range] at hi
  have hrow : m.rows[i]? = some i := by
    rw [h]
    simp [hi]
  rw [get, row, hrow]

theorem swapRows_self (m : AlignedBitMatrix) (a : ℕ) : (m.swapRows a a).rows = m.rows := by
  refine ext_getElem? fun j => ?_
  rcases Nat.lt_or_ge a m.rows.length with ha | ha
  · rw [swapRows, getElem?_swapEntries ha ha, Equiv.swap_self, Equiv.refl_apply]
  · simp [swapRows, swapEntries, ha]

theorem PointersInOrder.reduce (h : m.PointersInOrder) (source : ℕ × ℕ) :
    (m.reduce source).PointersInOrder := by
  refine List.foldlRecOn _ _ h fun m' hm' rowIndex _ => ?_
  split_ifs
  · exact hm'.setRow _ _
  · exact hm'

/-- Every pivot that the elimination finds is already in the row where it belongs. -/
def PivotsInPlaceFrom : ℕ → ℕ → ℕ × ℕ → AlignedBitMatrix → Prop
  | 0, _, _, _ => True
  | remaining + 1, rowIndex, pivot, m =>
    m.columnCount ≤ pivot.2 ∨ (pivot.1 = rowIndex ∧
      let m := (m.swapRows pivot.1 rowIndex).reduce (rowIndex, pivot.2)
      PivotsInPlaceFrom remaining (rowIndex + 1) (m.pivotOf (rowIndex + 1, pivot.2 + 1)) m)

/-- The elimination in place exchanges no rows. -/
def PivotsInPlace (m : AlignedBitMatrix) : Prop :=
  PivotsInPlaceFrom m.rowCount 0 (m.pivotOf (0, 0)) m

theorem PointersInOrder.echelonizeFrom {remaining rowIndex : ℕ} {pivot : ℕ × ℕ}
    (h : m.PointersInOrder) (hpivots : PivotsInPlaceFrom remaining rowIndex pivot m)
    (rankProfile : List ℕ) :
    (echelonizeFrom remaining rowIndex pivot (m, rankProfile)).1.PointersInOrder := by
  induction remaining generalizing m rowIndex pivot rankProfile with
  | zero => exact h
  | succ remaining ih =>
    rw [echelonizeFrom]
    split_ifs with hend
    · exact h
    · rcases hpivots with hend' | ⟨hplace, hpivots⟩
      · exact absurd hend' hend
      · refine ih (PointersInOrder.reduce ?_ _) hpivots _
        rw [hplace, PointersInOrder, swapRows_self]
        exact h

end PointersInOrder

end AlignedBitMatrix

namespace MatrixProgram

open AlignedBitMatrix

/-- No operation of the program reorders row pointers, but for those of matrices that are copied
afterwards. -/
def KeepsPointers : MatrixProgram → Prop
  | zeros _ _ | ones _ _ | identity _ | fromIter _ _ => True
  | transposed _ | dot _ _ | submatrix _ _ _ => True
  | resize m newRows newCols =>
    m.KeepsPointers ∨ ∀ a, m.run = some a → ¬ (newRows = a.rowCount ∧ newCols = a.columnCount)
  | set m _ _ _ | negate m _ _ | rowAssignIndex m _ _ _ | rowNegateIndex m _ _ => m.KeepsPointers
  | swapColumns m _ _ | addIntoRow m _ _ | addAssign m _ | bitandAssign m _ => m.KeepsPointers
  | swapRows m left right => m.KeepsPointers ∧ left = right
  | permuteRows m permutation => m.KeepsPointers ∧ permutation = List.range permutation.length
  | echelonize m => m.KeepsPointers ∧ ∀ a, m.run = some a → a.PivotsInPlace

theorem pointersInOrder_permuteRows {m m' : AlignedBitMatrix} {k : ℕ} (hm : m.PointersInOrder)
    (h : m.permuteRows (List.range k) = some m') : m'.PointersInOrder := by
  unfold AlignedBitMatrix.permuteRows at h
  split_ifs at h with hperm
  obtain rfl := some_inj.mp h
  have hle : k ≤ m.rows.length := by simpa [rowCount] using hperm.2
  refine Eq.trans (ext_getElem ?_ fun i hi hi' => ?_) hm
  · simp only [length_append, length_map, length_range, length_drop]
    omega
  · rw [getElem_append]
    split_ifs with hik
    · simp only [getElem_map, getElem_range]
      exact getD_eq_getElem _ _ hi'
    · have hlength : (List.map (fun k => m.rows.getD k 0) (List.range k)).length = k := by simp
      simp only [length_map, length_range, getElem_drop] at hik ⊢
      congr 1
      omega

theorem pointersInOrder_run {e : MatrixProgram} {m : AlignedBitMatrix} (hkeeps : e.KeepsPointers)
    (h : e.run = some m) : m.PointersInOrder := by
  induction e generalizing m with
  | zeros | ones | fromIter =>
    obtain rfl := some_inj.mp h
    exact pointersInOrder_fromBlocks _ _
  | identity dimension =>
    obtain rfl := some_inj.mp h
    exact List.foldlRecOn _ _ (pointersInOrder_fromBlocks _ _) fun m hm i _ => hm.setRow _ _
  | resize e newRows newCols ih =>
    obtain ⟨a, ha, h⟩ := bind_eq_some_iff.mp h
    split_ifs at h with hfits
    obtain rfl := some_inj.mp h
    unfold AlignedBitMatrix.resize
    split_ifs with hsame
    · rcases hkeeps with hkeeps | hchanges
      · exact ih hkeeps ha
      · exact absurd hsame (hchanges a ha)
    · refine List.foldlRecOn _ _ (pointersInOrder_fromBlocks _ _) fun m hm r _ => ?_
      exact List.foldlRecOn _ _ hm fun m hm c _ => hm.setRow _ _
  | set e row column value ih | negate e row column ih | rowAssignIndex e row index value ih
  | rowNegateIndex e row index ih | addIntoRow e toIndex fromIndex ih =>
    obtain ⟨a, ha, h⟩ := bind_eq_some_iff.mp h
    split_ifs at h
    obtain rfl := some_inj.mp h
    exact (ih hkeeps ha).setRow _ _
  | swapRows e left right ih =>
    obtain ⟨a, ha, h⟩ := bind_eq_some_iff.mp h
    split_ifs at h
    obtain rfl := some_inj.mp h
    obtain ⟨hkeeps, rfl⟩ := hkeeps
    rw [PointersInOrder, swapRows_self]
    exact ih hkeeps ha
  | permuteRows e permutation ih =>
    obtain ⟨a, ha, h⟩ := bind_eq_some_iff.mp h
    obtain ⟨hkeeps, hrange⟩ := hkeeps
    rw [hrange] at h
    exact pointersInOrder_permuteRows (ih hkeeps ha) h
  | swapColumns e left right ih =>
    obtain ⟨a, ha, h⟩ := bind_eq_some_iff.mp h
    split_ifs at h
    obtain rfl := some_inj.mp h
    exact List.foldlRecOn _ _ (ih hkeeps ha) fun m hm r _ => (hm.setRow _ _).setRow _ _
  | addAssign e other ih _ | bitandAssign e other ih _ =>
    obtain ⟨a, ha, h⟩ := bind_eq_some_iff.mp h
    obtain ⟨b, _, h⟩ := bind_eq_some_iff.mp h
    split_ifs at h
    obtain rfl := some_inj.mp h
    exact List.foldlRecOn _ _ (ih hkeeps ha) fun m hm r _ => hm.setRow _ _
  | transposed e ih =>
    obtain ⟨a, _, h⟩ := bind_eq_some_iff.mp h
    obtain rfl := some_inj.mp h
    exact pointersInOrder_fromBlocks _ _
  | dot e rhs _ _ =>
    obtain ⟨a, _, h⟩ := bind_eq_some_iff.mp h
    obtain ⟨b, _, h⟩ := bind_eq_some_iff.mp h
    split_ifs at h
    obtain rfl := some_inj.mp h
    exact pointersInOrder_fromBlocks _ _
  | submatrix e rows columns _ =>
    obtain ⟨a, _, h⟩ := bind_eq_some_iff.mp h
    split_ifs at h
    obtain rfl := some_inj.mp h
    exact pointersInOrder_fromBlocks _ _
  | echelonize e ih =>
    obtain ⟨a, ha, h⟩ := bind_eq_some_iff.mp h
    obtain rfl := some_inj.mp h
    exact (ih hkeeps.1 ha).echelonizeFrom (hkeeps.2 a ha) _

end MatrixProgram

end QdkEc
