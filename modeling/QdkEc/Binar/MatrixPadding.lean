import QdkEc.Binar.MatrixOps

/-!
# Padding of matrices

This module models the observers of `AlignedBitMatrix` and `BitMatrix` that read
whole blocks and settles when they report the entries only: exactly for the
matrices whose padding is clear, and these are all that a program reaches that
writes no padding.
-/

namespace QdkEc

open Option List Bits

namespace AlignedBitMatrix

/-- No stored bit is set. -/
def isZero (m : AlignedBitMatrix) : Bool :=
  m.blocks.all fun b => b == 0

/-- What is fed to the hasher: the number of columns and the blocks of the rows. -/
def hashInput (m : AlignedBitMatrix) : ℕ × List Bits :=
  (m.columnCount, (List.range m.rowCount).map m.row)

/-- No stored bit is beyond the last column. -/
def PaddingClear (m : AlignedBitMatrix) : Prop :=
  ∀ b ∈ m.blocks, b.Below m.columnCount

variable {other : AlignedBitMatrix}

section Observers

variable {m : AlignedBitMatrix}

theorem PaddingClear.below_row (h : m.PaddingClear) (i : ℕ) : (m.row i).Below m.columnCount := by
  rcases row_mem_blocks m i with hrow | hrow
  · exact h _ hrow
  · rw [hrow]
    exact below_zero _

theorem hashInput_eq_iff : m.hashInput = other.hashInput ↔ m.columnCount = other.columnCount ∧
      m.rowCount = other.rowCount ∧ ∀ i, i < m.rowCount → m.row i = other.row i := by
  unfold hashInput
  rw [Prod.mk.injEq]
  refine and_congr_right fun _ => ⟨fun h => ?_, ?_⟩
  · have hrows : m.rowCount = other.rowCount := by simpa using congrArg List.length h
    refine ⟨hrows, fun i hi => ?_⟩
    have hget := congrArg (fun l => l[i]?) h
    simpa [hi, hrows ▸ hi] using hget
  · rintro ⟨hrows, hrow⟩
    rw [← hrows]
    exact map_congr_left fun i hi => hrow i (mem_range.mp hi)

end Observers

section Writes

variable {m : AlignedBitMatrix}

theorem PaddingClear.setRow (h : m.PaddingClear) (i : ℕ) {b : Bits} (hb : b.Below m.columnCount) :
    (m.setRow i b).PaddingClear := by
  intro c hc
  unfold AlignedBitMatrix.setRow at hc
  dsimp only at hc
  cases hrow : m.rows[i]? with
  | none =>
    rw [hrow] at hc
    exact h c hc
  | some r =>
    rw [hrow] at hc
    rcases mem_or_eq_of_mem_set hc with hc | rfl
    · exact h c hc
    · exact hb

theorem paddingClear_fromBlocks {blocks : List Bits} {columnCount : ℕ}
    (h : ∀ b ∈ blocks, b.Below columnCount) : (fromBlocks blocks columnCount).PaddingClear :=
  h

theorem paddingClear_zeros (rowCount columnCount : ℕ) :
    (zeros rowCount columnCount).PaddingClear := by
  refine paddingClear_fromBlocks fun b hb => ?_
  rw [eq_of_mem_replicate hb]
  exact below_zero _

theorem PaddingClear.set (h : m.PaddingClear) (i : ℕ) {j : ℕ} {value : Bool}
    (hj : value = true → j < m.columnCount) : (m.set i j value).PaddingClear := by
  refine h.setRow i ?_
  have hrow := h.below_row i
  unfold assignIndex
  split_ifs with hsame
  · exact hrow
  · refine Bits.Below.add (below_unit.mpr ?_) hrow
    cases value with
    | true => exact hj rfl
    | false => exact hrow.lt_of_index (by simpa using hsame)

theorem PaddingClear.negate (h : m.PaddingClear) (i : ℕ) {j : ℕ} (hj : j < m.columnCount) :
    (m.negate i j).PaddingClear :=
  h.setRow i ((below_unit.mpr hj).add (h.below_row i))

theorem below_inter {n : ℕ} {a : Bits} (ha : a.Below n) (b : Bits) : (Bits.inter a b).Below n := by
  rw [below_iff]
  intro i hi
  rw [index_inter, ha.index_eq_false hi, Bool.false_and]

theorem PaddingClear.echelonize (h : m.PaddingClear) : m.echelonize.1.PaddingClear := by
  refine echelonize_induction (fun m i source start hm => hm.setRow i ?_)
    (fun m a b hm => hm) h
  refine (hm.below_row i).add ?_
  rw [below_iff]
  intro j hj
  rw [index_shiftUp, index_shiftDown]
  by_cases hstart : start ≤ j
  · rw [Nat.add_sub_cancel' hstart, (hm.below_row source).index_eq_false hj, Bool.and_false]
  · simp [hstart]

theorem PaddingClear.swapColumns (h : m.PaddingClear) {a b : ℕ}
    (hcolumns : m.rowCount = 0 ∨ a < m.columnCount ∧ b < m.columnCount) :
    (m.swapColumns a b).PaddingClear := by
  have hloop : (m.swapColumns a b).PaddingClear ∧
      (m.swapColumns a b).columnCount = m.columnCount := by
    refine List.foldlRecOn (motive := fun m' : AlignedBitMatrix =>
      m'.PaddingClear ∧ m'.columnCount = m.columnCount) _ _ ⟨h, rfl⟩ fun m' hm' r hr => ?_
    have hpos : 0 < m.rowCount := Nat.zero_lt_of_lt (mem_range.mp hr)
    obtain ⟨ha, hb⟩ := hcolumns.resolve_left hpos.ne'
    refine ⟨(hm'.1.set r fun _ => ?_).set r fun _ => ?_, hm'.2⟩
    · exact ha.trans_eq hm'.2.symm
    · exact hb.trans_eq hm'.2.symm
  exact hloop.1

theorem PaddingClear.addAssign (h : m.PaddingClear)
    (hother : other.PaddingClear) (hcolumns : m.columnCount = other.columnCount) :
    (m.addAssign other).PaddingClear := by
  have hloop : (m.addAssign other).PaddingClear ∧
      (m.addAssign other).columnCount = m.columnCount := by
    refine List.foldlRecOn (motive := fun m' : AlignedBitMatrix =>
      m'.PaddingClear ∧ m'.columnCount = m.columnCount) _ _ ⟨h, rfl⟩ fun m' hm' r _ => ?_
    refine ⟨hm'.1.setRow r ((hm'.1.below_row r).add ?_), hm'.2⟩
    rw [hm'.2, hcolumns]
    exact hother.below_row r
  exact hloop.1

theorem PaddingClear.bitandAssign (h : m.PaddingClear) (other : AlignedBitMatrix) :
    (m.bitandAssign other).PaddingClear :=
  List.foldlRecOn _ _ h fun _ hm' r _ => hm'.setRow r (below_inter (hm'.below_row r) _)

theorem PaddingClear.resize (h : m.PaddingClear) {newRows newCols : ℕ}
    (hcut : ∀ i, i < m.rowCount → ∀ j, j < m.columnCount → newCols ≤ j → m.get i j = false) :
    (m.resize newRows newCols).PaddingClear := by
  unfold AlignedBitMatrix.resize
  split_ifs
  · exact h
  · have hloop : ∀ (rows : List ℕ), (∀ r ∈ rows, r < m.rowCount) →
        (rows.foldl (fun newMatrix r => copyRow m newMatrix r m.columnCount)
          (zeros newRows newCols)).PaddingClear ∧
        (rows.foldl (fun newMatrix r => copyRow m newMatrix r m.columnCount)
          (zeros newRows newCols)).columnCount = newCols := by
      intro rows hrows
      refine List.foldlRecOn (motive := fun m' : AlignedBitMatrix =>
        m'.PaddingClear ∧ m'.columnCount = newCols) _ _ ⟨paddingClear_zeros _ _, rfl⟩
          fun m' hm' r hr => ?_
      refine List.foldlRecOn (motive := fun m' : AlignedBitMatrix =>
        m'.PaddingClear ∧ m'.columnCount = newCols) _ _ hm' fun m' hm' c hc => ?_
      refine ⟨hm'.1.set r fun hvalue => ?_, hm'.2⟩
      by_contra hlarge
      rw [hcut r (hrows r hr) c (mem_range.mp hc) (by omega)] at hvalue
      exact Bool.noConfusion hvalue
    exact (hloop _ fun r hr => mem_range.mp hr).1

theorem PaddingClear.dot {rhs : AlignedBitMatrix} (h : rhs.PaddingClear) (m : AlignedBitMatrix) :
    (m.dot rhs).PaddingClear := by
  refine paddingClear_fromBlocks fun b hb => ?_
  obtain ⟨i, _, rfl⟩ := mem_map.mp hb
  exact below_combine _ fun k _ => h.below_row k

end Writes

end AlignedBitMatrix

namespace MatrixProgram

open AlignedBitMatrix

end MatrixProgram

end QdkEc
