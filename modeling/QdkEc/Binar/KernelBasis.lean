import QdkEc.Binar.EchelonSolve
import QdkEc.Lib.IndependentRows

/-!
# Kernel bases

This module models the basis of the kernel that is read from the reduced rows:
each column without a pivot gives one vector, with its own unit and the entries
of the column at the pivots.
-/

namespace QdkEc

open List Bits Bits.Reduced

namespace AlignedBitMatrix

/-- The indices below a bound that are not listed. -/
def complement (v : List ℕ) (indexBound : ℕ) : List ℕ :=
  (List.range indexBound).filter (· ∉ v)

/-- A basis of the vectors that the matrix maps to zero. -/
def kernelBasisMatrix (matrix : AlignedBitMatrix) : AlignedBitMatrix :=
  let numCols := matrix.columnCount
  let (rr, rankProfile) := matrix.echelonize
  let rankProfileComplement := complement rankProfile numCols
  let resRowCount := numCols - rankProfile.length
  let res := zeros resRowCount numCols
  let res := rankProfile.zipIdx.foldl (fun res (elt, index) =>
    (rankProfileComplement.zipIdx.take resRowCount).foldl (fun res (colSrc, rowPos) =>
      res.set rowPos elt (rr.get index colSrc)) res) res
  rankProfileComplement.zipIdx.foldl (fun res (position, index) => res.set index position true) res

section Writes

variable {α : Type*} (row column : α → ℕ) (value : α → Bool)

theorem get_foldl_set (f : ℕ → ℕ → Bool) {l : List α} {m : AlignedBitMatrix}
    (hrow : ∀ a ∈ l, row a < m.rowCount) (hvalue : ∀ a ∈ l, value a = f (row a) (column a)) :
    let written := l.foldl (fun m a => m.set (row a) (column a) (value a)) m
    (written.rowCount = m.rowCount ∧ written.columnCount = m.columnCount) ∧
      ∀ i j, written.get i j =
        if ∃ a ∈ l, row a = i ∧ column a = j then f i j else m.get i j := by
  induction l generalizing m with
  | nil => simp
  | cons a l ih =>
    obtain ⟨hshape, hget⟩ := ih (m := m.set (row a) (column a) (value a))
      (fun b hb => hrow b (by simp [hb])) fun b hb => hvalue b (by simp [hb])
    refine ⟨hshape, fun i j => ?_⟩
    rw [foldl_cons, hget, get_set (hrow a (by simp))]
    simp only [exists_mem_cons_iff]
    by_cases hrest : ∃ b ∈ l, row b = i ∧ column b = j
    · rw [if_pos hrest, if_pos (Or.inr hrest)]
    · rw [if_neg hrest]
      by_cases hhead : i = row a ∧ j = column a
      · obtain ⟨rfl, rfl⟩ := hhead
        rw [if_pos ⟨rfl, rfl⟩, if_pos (Or.inl ⟨rfl, rfl⟩), hvalue a (by simp)]
      · rw [if_neg hhead, if_neg]
        rintro (⟨rfl, rfl⟩ | hother)
        · exact hhead ⟨rfl, rfl⟩
        · exact hrest hother

end Writes

section Complement

variable {v : List ℕ} {n : ℕ}

theorem mem_complement {j : ℕ} : j ∈ complement v n ↔ j < n ∧ j ∉ v := by
  simp [complement]

theorem nodup_complement (v : List ℕ) (n : ℕ) : (complement v n).Nodup :=
  nodup_range.filter _

theorem length_complement (hnodup : v.Nodup) (hlt : ∀ j ∈ v, j < n) :
    (complement v n).length = n - v.length := by
  have hperm : (complement v n ++ v).Perm (List.range n) := by
    refine (perm_ext_iff_of_nodup ?_ nodup_range).mpr fun j => ?_
    · refine (nodup_complement v n).append hnodup fun j hj hj' => ?_
      exact (mem_complement.mp hj).2 hj'
    · rw [mem_append, mem_complement, mem_range]
      tauto
  have hlength := hperm.length_eq
  rw [length_append, length_range] at hlength
  omega

end Complement

end AlignedBitMatrix

namespace EchelonForm

open AlignedBitMatrix

section Kernel

variable {A : AlignedBitMatrix} {form : EchelonForm} (h : Eliminated A form A.columnCount)

/-- The combination of the pivots along the entries of a column. -/
def pivotPart (form : EchelonForm) (j : ℕ) : Bits :=
  Bits.combine (fun i => Bits.unit (form.pivots.getD i 0)) (form.matrix.column j)

/-- The vector of the kernel that a column without a pivot gives. -/
def kernelVector (form : EchelonForm) (j : ℕ) : Bits :=
  Bits.unit j + form.pivotPart j

include h

theorem Eliminated.nodup_pivots : form.pivots.Nodup :=
  h.sorted.imp fun hab => Nat.ne_of_lt hab

theorem Eliminated.below_column {j : ℕ} (hj : j < A.columnCount) :
    (form.matrix.column j).Below form.pivots.length := by
  rw [below_iff]
  intro i hi
  rw [index_column]
  exact h.cleared i j hi hj

theorem Eliminated.index_pivotPart {i j : ℕ} (hj : j < A.columnCount)
    (hi : i < form.pivots.length) :
    (form.pivotPart j).index form.pivots[i] = form.matrix.get i j := by
  rw [pivotPart, index_combine_unit_getD h.nodup_pivots (h.below_column hj) hi, index_column]

theorem Eliminated.index_pivotPart_of_notMem {j k : ℕ} (hj : j < A.columnCount)
    (hk : k ∉ form.pivots) : (form.pivotPart j).index k = false :=
  index_combine_unit_getD_of_notMem (h.below_column hj) hk

theorem Eliminated.mulVec_kernelVector {j : ℕ} (hj : j < A.columnCount) :
    A.mulVec (form.kernelVector j) = 0 := by
  have hform : form.matrix.mulVec (form.kernelVector j) = 0 := by
    have hadd := map_add form.matrix.mulVecHom (Bits.unit j) (form.pivotPart j)
    refine hadd.trans ?_
    change form.matrix.mulVec _ + form.matrix.mulVec (form.pivotPart j) = 0
    rw [pivotPart, h.index_mulVec_pivots (h.below_column hj), ← combine_column, combine_unit,
      add_self]
  rw [← h.mulVec_transform_inj (below_mulVec A _) (below_zero _), ← h.mulVec_eq, hform]
  exact (map_zero form.transform.mulVecHom).symm

theorem Eliminated.below_kernelVector {j : ℕ} (hj : j < A.columnCount) :
    (form.kernelVector j).Below A.columnCount :=
  (below_unit.mpr hj).add (h.below_combine_pivots (h.below_column hj))

theorem Eliminated.eq_zero_of_pivots {x : Bits} (hx : A.mulVec x = 0)
    (hsupport : ∀ j, x.index j = true → j ∈ form.pivots) : x = 0 := by
  have hform : form.matrix.mulVec x = 0 := by
    rw [h.mulVec_eq, hx]
    exact map_zero form.transform.mulVecHom
  have hcombine := combine_unit_coefficients h.nodup_pivots hsupport
  have hread := h.index_mulVec_pivots (below_coefficients x)
  rw [hcombine, hform] at hread
  rw [← hcombine, ← hread, combine_zero]

theorem Eliminated.combine_kernelVector {x : Bits} (hbelow : x.Below A.columnCount)
    (hx : A.mulVec x = 0) :
    Bits.combine (fun r => form.kernelVector ((complement form.pivots A.columnCount).getD r 0))
      (coefficients (complement form.pivots A.columnCount) x) = x := by
  set columns := complement form.pivots A.columnCount with hcolumns
  set t := coefficients columns x with ht
  have hlt : t.Below columns.length := below_coefficients x
  have hcolumn : ∀ r (hr : r < columns.length),
      columns[r] < A.columnCount ∧ columns[r] ∉ form.pivots := fun r hr =>
    mem_complement.mp (List.getElem_mem hr)
  have hzero : A.mulVec (Bits.combine (fun r => form.kernelVector (columns.getD r 0)) t) = 0 := by
    have hmap := map_combine (fun r => form.kernelVector (columns.getD r 0)) A.mulVecHom t
    refine hmap.trans ((combine_congr hlt fun r hr => ?_).trans
      (combine_eq_zero (fun _ => 0) fun _ _ => rfl))
    rw [List.getD_eq_getElem _ _ hr]
    exact h.mulVec_kernelVector (hcolumn r hr).1
  -- What is left of the vector stands on the pivots and is mapped to zero.
  refine add_eq_zero_iff.mp (h.eq_zero_of_pivots ?_ fun j hj => ?_)
  · have hadd := map_add A.mulVecHom
      (Bits.combine (fun r => form.kernelVector (columns.getD r 0)) t) x
    refine hadd.trans ?_
    change A.mulVec _ + A.mulVec _ = 0
    rw [hzero, hx, add_zero]
  · by_contra hpivot
    have hparts : (Bits.combine (fun r => form.pivotPart (columns.getD r 0)) t).index j = false :=
      index_combine_eq_false _ fun r hr => by
        have hr' := hlt.lt_of_index hr
        rw [List.getD_eq_getElem _ _ hr']
        exact h.index_pivotPart_of_notMem (hcolumn r hr').1 hpivot
    have hunits : (Bits.combine (fun r => Bits.unit (columns.getD r 0)) t).index j =
        x.index j := by
      rcases Nat.lt_or_ge j A.columnCount with hj' | hj'
      · obtain ⟨r, hr, rfl⟩ := mem_iff_getElem.mp (mem_complement.mpr ⟨hj', hpivot⟩)
        rw [index_combine_unit_getD (nodup_complement _ _) hlt hr, ht, index_coefficients hr]
      · rw [hbelow.index_eq_false hj', index_combine_unit_getD_of_notMem hlt]
        exact fun hmem => absurd (mem_complement.mp hmem).1 (by omega)
    rw [show (fun r => form.kernelVector (columns.getD r 0)) = fun r =>
        Bits.unit (columns.getD r 0) + form.pivotPart (columns.getD r 0) from rfl,
      combine_add_rows, index_add, index_add, hunits, hparts] at hj
    simp at hj

theorem Eliminated.independent_kernelVector :
    Bits.Independent (complement form.pivots A.columnCount).length fun r =>
      form.kernelVector ((complement form.pivots A.columnCount).getD r 0) := by
  refine independent_of_index
    (fun r => (complement form.pivots A.columnCount).getD r 0) fun r s hr hs => ?_
  obtain ⟨hcolumn, _⟩ := mem_complement.mp (List.getElem_mem hr)
  obtain ⟨_, hpivot⟩ := mem_complement.mp (List.getElem_mem hs)
  rw [List.getD_eq_getElem _ _ hr, List.getD_eq_getElem _ _ hs, kernelVector, index_add,
    h.index_pivotPart_of_notMem hcolumn hpivot, index_unit, Bool.xor_false]
  exact decide_eq_decide.mpr (List.Nodup.getElem_inj_iff (nodup_complement _ _))

end Kernel

end EchelonForm

namespace AlignedBitMatrix

section KernelBasis

variable (A : AlignedBitMatrix)

/-- The entries at the pivots, row by row of the reduced matrix, as the first loop writes them. -/
def pivotEntries (A : AlignedBitMatrix) : AlignedBitMatrix :=
  let form := EchelonForm.new A
  let columns := complement form.pivots A.columnCount
  (form.pivots.zipIdx.flatMap fun pivot => columns.zipIdx.map (pivot, ·)).foldl
    (fun res write => res.set write.2.2 write.1.1 (form.matrix.get write.1.2 write.2.1))
      (zeros columns.length A.columnCount)

theorem kernelBasisMatrix_eq : A.kernelBasisMatrix =
      (complement (EchelonForm.new A).pivots A.columnCount).zipIdx.foldl
        (fun res column => res.set column.2 column.1 true) A.pivotEntries := by
  have h := EchelonForm.eliminated_new A
  have hlength : (complement (EchelonForm.new A).pivots A.columnCount).length =
      A.columnCount - (EchelonForm.new A).pivots.length :=
    length_complement h.nodup_pivots fun j hj => h.lt j hj
  rw [kernelBasisMatrix, EchelonForm.echelonize_eq, pivotEntries]
  dsimp only
  rw [← hlength, take_of_length_le (by simp), foldl_flatMap]
  simp only [foldl_map]

theorem get_pivotEntries :
    let columns := complement (EchelonForm.new A).pivots A.columnCount
    (A.pivotEntries.rowCount = columns.length ∧ A.pivotEntries.columnCount = A.columnCount) ∧
      ∀ r (_ : r < columns.length) j, A.pivotEntries.get r j =
        ((EchelonForm.new A).pivotPart (columns.getD r 0)).index j := by
  have h := EchelonForm.eliminated_new A
  unfold pivotEntries
  set form := EchelonForm.new A
  set columns := complement form.pivots A.columnCount with hcolumns
  have hmem : ∀ write : (ℕ × ℕ) × ℕ × ℕ,
      write ∈ (form.pivots.zipIdx.flatMap fun pivot => columns.zipIdx.map (pivot, ·)) ↔
        form.pivots[write.1.2]? = some write.1.1 ∧ columns[write.2.2]? = some write.2.1 := by
    rintro ⟨⟨elt, index⟩, colSrc, rowPos⟩
    simp [mem_flatMap, mk_mem_zipIdx_iff_getElem?]
  obtain ⟨hshape, hget⟩ := get_foldl_set (fun write : (ℕ × ℕ) × ℕ × ℕ => write.2.2)
    (fun write => write.1.1) (fun write => form.matrix.get write.1.2 write.2.1)
    (fun r j => (form.pivotPart (columns.getD r 0)).index j)
    (m := zeros columns.length A.columnCount) (fun write hwrite => by
      obtain ⟨hlt, _⟩ := List.getElem?_eq_some_iff.mp ((hmem write).mp hwrite).2
      rwa [rowCount_zeros]) fun write hwrite => by
      obtain ⟨hpivot, hcolumn⟩ := (hmem write).mp hwrite
      obtain ⟨hi, hpivot⟩ := List.getElem?_eq_some_iff.mp hpivot
      obtain ⟨hr, hcolumn⟩ := List.getElem?_eq_some_iff.mp hcolumn
      rw [List.getD_eq_getElem _ _ hr, hcolumn, ← hpivot, h.index_pivotPart _ hi]
      rw [← hcolumn]
      exact (mem_complement.mp (List.getElem_mem hr)).1
  refine ⟨⟨hshape.1.trans (rowCount_zeros _ _), hshape.2⟩, fun r hr j => ?_⟩
  rw [hget]
  split_ifs with hwritten
  · rfl
  · rw [List.getD_eq_getElem _ _ hr,
      h.index_pivotPart_of_notMem (mem_complement.mp (List.getElem_mem hr)).1, get, row_zeros,
      index_zero]
    intro hj
    obtain ⟨i, hi, rfl⟩ := mem_iff_getElem.mp hj
    exact hwritten ⟨((form.pivots[i], i), columns[r], r), (hmem _).mpr
      ⟨getElem?_eq_getElem hi, getElem?_eq_getElem hr⟩, rfl, rfl⟩

theorem row_kernelBasisMatrix :
    let columns := complement (EchelonForm.new A).pivots A.columnCount
    (A.kernelBasisMatrix.rowCount = columns.length ∧
      A.kernelBasisMatrix.columnCount = A.columnCount) ∧
        ∀ r, r < columns.length →
          A.kernelBasisMatrix.row r = (EchelonForm.new A).kernelVector (columns.getD r 0) := by
  have h := EchelonForm.eliminated_new A
  obtain ⟨hshape, hentries⟩ := A.get_pivotEntries
  set form := EchelonForm.new A with hform
  set columns := complement form.pivots A.columnCount with hcolumns
  -- The columns without a pivot, each with a one in its own row.
  obtain ⟨hshape', hget⟩ := get_foldl_set (fun column : ℕ × ℕ => column.2)
    (fun column => column.1) (fun _ => true) (fun _ _ => true) (l := columns.zipIdx)
    (m := A.pivotEntries) (fun column hcolumn => by
      obtain ⟨hr, _⟩ := List.getElem?_eq_some_iff.mp (List.mem_zipIdx_iff_getElem?.mp hcolumn)
      rwa [hshape.1]) fun _ _ => rfl
  rw [← A.kernelBasisMatrix_eq] at hshape' hget
  refine ⟨⟨hshape'.1.trans hshape.1, hshape'.2.trans hshape.2⟩, fun r hr => ?_⟩
  obtain ⟨hcolumn, hpivot⟩ := mem_complement.mp (List.getElem_mem hr)
  refine ext_index fun j => ?_
  have hrow := hget r j
  rw [hentries r hr] at hrow
  refine hrow.trans ?_
  rw [List.getD_eq_getElem _ _ hr, EchelonForm.kernelVector, index_add, index_unit]
  rcases eq_or_ne columns[r] j with hj | hj
  · rw [if_pos ⟨(columns[r], r), List.mem_zipIdx_iff_getElem?.mpr (getElem?_eq_getElem hr),
      rfl, hj⟩, ← hj, h.index_pivotPart_of_notMem hcolumn hpivot]
    simp
  · rw [if_neg, decide_eq_false hj, Bool.false_xor]
    rintro ⟨column, hwrite, hrow, hcolumn⟩
    have hsome := List.mem_zipIdx_iff_getElem?.mp hwrite
    rw [hrow, hcolumn, getElem?_eq_getElem hr] at hsome
    exact hj (Option.some_inj.mp hsome)

theorem kernelBasisMatrix_spec : A.kernelBasisMatrix.columnCount = A.columnCount ∧
      Bits.Independent A.kernelBasisMatrix.rowCount A.kernelBasisMatrix.row ∧
        ∀ x : Bits, x ∈ Bits.rowSpace A.kernelBasisMatrix.rowCount A.kernelBasisMatrix.row ↔
          x.Below A.columnCount ∧ A.mulVec x = 0 := by
  have h := EchelonForm.eliminated_new A
  obtain ⟨⟨hrows, hcolumns⟩, hrow⟩ := A.row_kernelBasisMatrix
  refine ⟨hcolumns, ?_, fun x => ⟨?_, ?_⟩⟩
  · rw [hrows]
    exact h.independent_kernelVector.congr fun r hr => (hrow r hr).symm
  · rw [hrows]
    rintro ⟨t, ht, rfl⟩
    have hcolumn : ∀ r, t.index r = true →
        A.kernelBasisMatrix.row r = (EchelonForm.new A).kernelVector
          ((complement (EchelonForm.new A).pivots A.columnCount).getD r 0) ∧
        (complement (EchelonForm.new A).pivots A.columnCount).getD r 0 < A.columnCount := by
      intro r hr
      have hlt := ht.lt_of_index hr
      refine ⟨hrow r hlt, ?_⟩
      rw [List.getD_eq_getElem _ _ hlt]
      exact (mem_complement.mp (List.getElem_mem hlt)).1
    constructor
    · refine below_combine _ fun r hr => ?_
      rw [(hcolumn r hr).1]
      exact h.below_kernelVector (hcolumn r hr).2
    · have hmap := map_combine A.kernelBasisMatrix.row A.mulVecHom t
      refine hmap.trans (combine_eq_zero _ fun r hr => ?_)
      rw [(hcolumn r hr).1]
      exact h.mulVec_kernelVector (hcolumn r hr).2
  · rintro ⟨hbelow, hx⟩
    rw [hrows]
    refine ⟨_, below_coefficients x, ?_⟩
    rw [combine_congr (below_coefficients x) hrow]
    exact h.combine_kernelVector hbelow hx

end KernelBasis

end AlignedBitMatrix

end QdkEc
