import QdkEc.Binar.BlockForms
import QdkEc.Binar.KernelBasis
import QdkEc.Binar.RowSpaceIntersection

/-!
# Completing independent rows to a basis

This module models the completion of a matrix to a square one.  Independent rows
are completed by the units of the columns without a pivot, and the completed
matrix has an inverse.
-/

namespace QdkEc

open Bits List EchelonForm

namespace AlignedBitMatrix

def completeToFullRankRowBasis (matrix : AlignedBitMatrix) : Option AlignedBitMatrix :=
  let columnCount := matrix.columnCount
  let rowCount := matrix.rowCount
  let (_, rankProfile) := matrix.echelonize
  if rankProfile.length ≠ rowCount then none
  else
    let res := zeros columnCount columnCount
    let res := (List.range rowCount).foldl
      (fun res rowIndex => res.setRow rowIndex (matrix.row rowIndex)) res
    let rankProfileComplement := complement rankProfile columnCount
    some (rankProfileComplement.zipIdx.foldl (fun res (position, index) =>
      res.set (index + rowCount) position true) res)

/-- A square matrix has an inverse on both sides. -/
def IsInvertible (m : AlignedBitMatrix) : Prop :=
  m.rowCount = m.columnCount ∧ ∃ inverse : AlignedBitMatrix,
    (m.dot inverse).eq (identity m.rowCount) = true ∧
      (inverse.dot m).eq (identity m.rowCount) = true

section Independent

variable {A : AlignedBitMatrix} {form : EchelonForm}
  (h : EchelonForm.Eliminated A form A.columnCount)

include h

theorem independent_entries_iff :
    Bits.Independent A.rowCount A.entries ↔ form.pivots.length = A.rowCount := by
  constructor
  · intro hindependent
    by_contra hne
    have hlt : form.pivots.length < A.rowCount := lt_of_le_of_ne h.length_le hne
    have hzero := h.reduced.zero _ (le_refl form.pivots.length)
    rw [entries_form h] at hzero
    have hself := h.transforms.dual.dot_eq _ _ hlt hlt
    rw [hindependent _ (h.transforms.dual.below_left _ hlt) hzero, dot_zero_left,
      decide_eq_true rfl] at hself
    cases hself
  · intro hrank t ht hzero
    obtain ⟨c, hc, rfl⟩ := h.transforms.dual.exists_combine ht
    rw [combine_combine, ← funext (entries_form h)] at hzero
    rw [h.reduced.independent c (by rwa [hrank]) hzero, combine_zero]

theorem pivots_eq_range (hrank : form.pivots.length = A.columnCount) :
    form.pivots = List.range A.columnCount := by
  have hsubperm : form.pivots.Subperm (List.range A.columnCount) :=
    subperm_of_subset h.nodup_pivots fun j hj => mem_range.mpr (h.lt j hj)
  have hperm : form.pivots.Perm (List.range A.columnCount) :=
    hsubperm.perm_of_length_le (by rw [length_range, hrank])
  exact hperm.eq_of_pairwise (fun a b _ _ hab hba => absurd hab (lt_asymm hba)) h.sorted
    pairwise_lt_range

theorem entries_form_eq_unit (hrank : form.pivots.length = A.columnCount) {i : ℕ}
    (hi : i < A.columnCount) : Bits.low A.columnCount (form.matrix.row i) = unit i := by
  refine ext_index fun j => ?_
  rcases Nat.lt_or_ge j A.columnCount with hj | hj
  · have hpivot := h.pivot i j (by omega)
    simp only [pivots_eq_range h hrank, getElem_range] at hpivot
    rw [index_low, decide_eq_true hj, Bool.true_and, index_unit]
    exact hpivot
  · rw [(below_low _ _).index_eq_false hj, index_unit, decide_eq_false (by omega)]

end Independent

theorem columnCount_identity (dimension : ℕ) : (identity dimension).columnCount = dimension :=
  List.foldlRecOn (motive := fun m : AlignedBitMatrix => m.columnCount = dimension) _ _ rfl
    fun _ h _ _ => h

theorem dot_eq_identity {m other : AlignedBitMatrix} {n : ℕ} (hrows : m.rowCount = n)
    (hcolumns : other.columnCount = n)
    (hunit : ∀ i, i < n → Bits.combine other.entries (Bits.low m.columnCount (m.row i)) = unit i) :
    (m.dot other).eq (identity n) = true := by
  rw [eq_eq_true_iff, rowCount_dot, columnCount_dot, rowCount_identity]
  refine ⟨hrows, hcolumns.trans (columnCount_identity n).symm, fun i hi j hj => ?_⟩
  rw [hrows] at hi
  rw [get, get, row_dot _ _ (by omega), row_identity hi, ← hunit i hi]
  have hlow : (fun k => Bits.low other.columnCount (other.row k)) = other.entries := rfl
  rw [← hlow, ← low_combine, index_low, decide_eq_true hj, Bool.true_and]

theorem isInvertible_of_independent {m : AlignedBitMatrix} (hsquare : m.rowCount = m.columnCount)
    (hindependent : Bits.Independent m.rowCount m.entries) : m.IsInvertible := by
  have h := eliminated_new m
  have hrank := (independent_entries_iff h).mp hindependent
  set transform := (EchelonForm.new m).transform with htransform
  have hbelow : ∀ i, i < m.rowCount → (transform.row i).Below m.rowCount :=
    h.transforms.dual.below_left
  have hunit : ∀ i, i < m.rowCount → Bits.combine m.entries (transform.row i) = unit i := by
    intro i hi
    rw [← entries_form h, entries_form_eq_unit h (by omega) (by omega)]
  -- Combining the rows is injective, so the transform inverts them on the other side.
  have hunit' : ∀ i, i < m.rowCount → Bits.combine transform.row (m.entries i) = unit i := by
    intro i hi
    have hentries : (m.entries i).Below m.rowCount := by
      rw [hsquare]
      exact below_low _ _
    refine hindependent.injOn (below_combine _ fun j hj => ?_) (below_unit.mpr hi) ?_
    · exact hbelow j (hentries.lt_of_index hj)
    · rw [combine_combine, combine_congr hentries hunit, combine_units, combine_unit]
  set inverse := fromRowIter ((List.range m.rowCount).map transform.row) m.rowCount with hinverse
  have hrow : ∀ i, i < m.rowCount → inverse.row i = transform.row i := by
    intro i hi
    rw [hinverse, row_fromRowIter]
    simp [hi]
  refine ⟨hsquare, inverse, dot_eq_identity rfl rfl fun i hi => ?_,
    dot_eq_identity (by simp [hinverse]) hsquare.symm fun i hi => ?_⟩
  · rw [← hunit' i hi]
    refine combine_congr (n := m.rowCount) (by rw [hsquare]; exact below_low _ _)
      fun j hj => ?_
    rw [entries, hrow j hj]
    exact low_eq_self (hbelow j hj)
  · rw [hrow i hi, ← hunit i hi]
    exact congrArg _ (low_eq_self (hbelow i hi))

theorem row_foldl_setRow (f : ℕ → Bits) {l : List ℕ} {m : AlignedBitMatrix}
    (hl : ∀ i ∈ l, i < m.rowCount) :
    let written := l.foldl (fun m i => m.setRow i (f i)) m
    (written.rowCount = m.rowCount ∧ written.columnCount = m.columnCount) ∧
      ∀ j, written.row j = if j ∈ l then f j else m.row j := by
  induction l generalizing m with
  | nil => simp
  | cons i l ih =>
    obtain ⟨hshape, hrow⟩ := ih (m := m.setRow i (f i)) fun k hk => hl k (by simp [hk])
    refine ⟨hshape, fun j => ?_⟩
    rw [foldl_cons, hrow, row_setRow (hl i (by simp))]
    rcases eq_or_ne j i with rfl | hji
    · simp
    · simp [hji]

section Completion

variable {A res : AlignedBitMatrix}

theorem row_completeToFullRankRowBasis (hres : A.completeToFullRankRowBasis = some res) :
    (EchelonForm.new A).pivots.length = A.rowCount ∧
      (res.rowCount = A.columnCount ∧ res.columnCount = A.columnCount) ∧
        (∀ i, i < A.rowCount → res.row i = A.row i) ∧
          ∀ k (hk : k < (complement (EchelonForm.new A).pivots A.columnCount).length),
            res.row (A.rowCount + k) =
              unit (complement (EchelonForm.new A).pivots A.columnCount)[k] := by
  have h := eliminated_new A
  rw [completeToFullRankRowBasis, echelonize_eq] at hres
  dsimp only at hres
  split_ifs at hres with hrank
  push Not at hrank
  obtain rfl := Option.some_inj.mp hres
  set columns := complement (EchelonForm.new A).pivots A.columnCount with hcolumns
  have hlength : columns.length + A.rowCount = A.columnCount := by
    have hsubperm : (EchelonForm.new A).pivots.Subperm (List.range A.columnCount) :=
      subperm_of_subset h.nodup_pivots fun j hj => mem_range.mpr (h.lt j hj)
    have hle := hsubperm.length_le
    rw [length_range] at hle
    rw [hcolumns, length_complement h.nodup_pivots fun j hj => h.lt j hj]
    omega
  obtain ⟨hshape, hrow⟩ := row_foldl_setRow A.row (l := List.range A.rowCount)
    (m := zeros A.columnCount A.columnCount) fun i hi => by
      rw [rowCount_zeros]
      exact (mem_range.mp hi).trans_le (by omega)
  obtain ⟨hshape', hget⟩ := get_foldl_set (fun column : ℕ × ℕ => column.2 + A.rowCount)
    (fun column => column.1) (fun _ => true) (fun _ _ => true) (l := columns.zipIdx)
    (m := (List.range A.rowCount).foldl (fun m i => m.setRow i (A.row i))
      (zeros A.columnCount A.columnCount)) (fun column hcolumn => by
        obtain ⟨hr, _⟩ := List.getElem?_eq_some_iff.mp (List.mem_zipIdx_iff_getElem?.mp hcolumn)
        rw [hshape.1, rowCount_zeros]
        omega) fun _ _ => rfl
  refine ⟨hrank, ⟨?_, hshape'.2.trans hshape.2⟩, fun i hi => ?_, fun k hk => ?_⟩
  · rw [hshape'.1, hshape.1, rowCount_zeros]
  · refine ext_index fun j => (hget i j).trans ?_
    rw [if_neg, get, hrow, if_pos (mem_range.mpr hi)]
    rintro ⟨column, _, hindex, _⟩
    omega
  · refine ext_index fun j => (hget _ j).trans ?_
    have hempty : ((List.range A.rowCount).foldl (fun m i => m.setRow i (A.row i))
        (zeros A.columnCount A.columnCount)).get (A.rowCount + k) j = false := by
      rw [get, hrow, if_neg (by simp), row_zeros, index_zero]
    rw [hempty, index_unit]
    rcases eq_or_ne columns[k] j with hj | hj
    · rw [decide_eq_true hj, if_pos]
      exact ⟨(columns[k], k), List.mem_zipIdx_iff_getElem?.mpr (getElem?_eq_getElem hk),
        Nat.add_comm _ _, hj⟩
    · rw [decide_eq_false hj, if_neg]
      rintro ⟨column, hcolumn, hindex, hposition⟩
      have hsome := List.mem_zipIdx_iff_getElem?.mp hcolumn
      obtain rfl : column.2 = k := by omega
      rw [hposition, getElem?_eq_getElem hk] at hsome
      exact hj (Option.some_inj.mp hsome)

theorem independent_completion (hres : A.completeToFullRankRowBasis = some res) :
    Bits.Independent res.rowCount res.entries := by
  have h := eliminated_new A
  obtain ⟨hrank, ⟨hrows, hcolumns⟩, hfirst, hrest⟩ := row_completeToFullRankRowBasis hres
  set columns := complement (EchelonForm.new A).pivots A.columnCount with hcomplement
  have hlength : columns.length = A.columnCount - A.rowCount := by
    rw [hcomplement, length_complement h.nodup_pivots fun j hj => h.lt j hj, hrank]
  intro t ht hzero
  have hshift : (shiftDown A.rowCount t).Below columns.length := by
    rw [below_iff]
    intro k hk
    rw [index_shiftDown, ht.index_eq_false (by omega)]
  -- The combination of the rows of the matrix and the one of the units cancel.
  have hsum : Bits.combine A.entries (Bits.low A.rowCount t) =
      Bits.combine (fun k => unit (columns.getD k 0)) (shiftDown A.rowCount t) := by
    refine add_eq_zero_iff.mp ?_
    rw [← combine_split, ← hzero]
    refine combine_congr ht fun i hi => ?_
    split_ifs with hi'
    · rw [entries, entries, hfirst i hi', hcolumns]
    · have hk : i - A.rowCount < columns.length := by omega
      have hrow := hrest (i - A.rowCount) hk
      rw [Nat.add_sub_cancel' (Nat.le_of_not_lt hi')] at hrow
      rw [entries, hrow, getD_eq_getElem _ _ hk, hcolumns, low_eq_self]
      exact below_unit.mpr (mem_complement.mp (getElem_mem hk)).1
  have hnone : Bits.combine A.entries (Bits.low A.rowCount t) = 0 := by
    refine h.reduced.eq_zero_of_pivots (n := A.rowCount) hrank.le ?_ fun j hj => ?_
    · rw [h.rowSpace_eq]
      exact ⟨_, below_low _ t, rfl⟩
    · rw [hsum]
      refine index_combine_unit_getD_of_notMem hshift fun hmem => ?_
      exact (mem_complement.mp hmem).2 (getElem_mem hj)
  have hlow := (independent_entries_iff h).mpr hrank _ (below_low _ t) hnone
  refine ext_index fun j => ?_
  rw [index_zero]
  rcases Nat.lt_or_ge j A.rowCount with hj | hj
  · have hindex := congrArg (fun b => b.index j) hlow
    simpa [hj] using hindex
  · rcases Nat.lt_or_ge (j - A.rowCount) columns.length with hk | hk
    · have hread := index_combine_unit_getD (nodup_complement _ _) hshift hk
      rw [← hsum, hnone, index_zero, index_shiftDown, Nat.add_sub_cancel' hj] at hread
      exact hread.symm
    · exact ht.index_eq_false (by omega)

theorem completeToFullRankRowBasis_spec (A : AlignedBitMatrix) :
    ((∃ res, A.completeToFullRankRowBasis = some res) ↔ Bits.Independent A.rowCount A.entries) ∧
      ∀ res, A.completeToFullRankRowBasis = some res →
        res.columnCount = A.columnCount ∧ res.IsInvertible ∧
          ∀ i, i < A.rowCount → res.row i = A.row i := by
  have h := eliminated_new A
  refine ⟨⟨?_, fun hindependent => ?_⟩, fun res hres => ?_⟩
  · rintro ⟨res, hres⟩
    exact (independent_entries_iff h).mpr (row_completeToFullRankRowBasis hres).1
  · have hrank := (independent_entries_iff h).mp hindependent
    rw [completeToFullRankRowBasis, echelonize_eq]
    dsimp only
    rw [if_neg (not_not_intro hrank)]
    exact ⟨_, rfl⟩
  · obtain ⟨_, ⟨hrows, hcolumns⟩, hrow, _⟩ := row_completeToFullRankRowBasis hres
    exact ⟨hcolumns, isInvertible_of_independent (hrows.trans hcolumns.symm)
      (independent_completion hres), hrow⟩

/-- The kernel basis is independent and spans the vectors that the matrix maps to zero, and the
completion succeeds exactly on independent rows, with an invertible matrix that begins with
them. -/
theorem kernelBasis_and_completion (A : AlignedBitMatrix) :
    (Bits.Independent A.kernelBasisMatrix.rowCount A.kernelBasisMatrix.row ∧
      ∀ x : Bits, x ∈ Bits.rowSpace A.kernelBasisMatrix.rowCount A.kernelBasisMatrix.row ↔
        x.Below A.columnCount ∧ A.mulVec x = 0) ∧
      ((∃ res, A.completeToFullRankRowBasis = some res) ↔ Bits.Independent A.rowCount A.entries) ∧
        ∀ res, A.completeToFullRankRowBasis = some res →
          res.columnCount = A.columnCount ∧ res.IsInvertible ∧
            ∀ i, i < A.rowCount → res.row i = A.row i :=
  ⟨A.kernelBasisMatrix_spec.2, A.completeToFullRankRowBasis_spec⟩

end Completion

end AlignedBitMatrix

end QdkEc
