import QdkEc.Binar.KernelBasis
import QdkEc.Binar.RowSpaceIntersection
import QdkEc.Paulimer.PauliGroupOrder

/-!
# Centralizers of Pauli groups

This module models the centralizer of a Pauli group within a support.  The bit
vectors that commute with the group and stand on the support are the kernel of
the echelon form with its halves exchanged, stacked on the units of the qubits
outside the support; on the other qubits of the support every Pauli commutes.
-/

namespace QdkEc

open PhasedPauli List Bits

namespace PauliGroup

open AlignedBitMatrix

/-- Exchange the entries of a row at a column and half the columns behind it. -/
def exchangeHalves (halfColumnIndex : ℕ) (dualMatrix : AlignedBitMatrix)
    (rowIndex columnIndex : ℕ) :
    AlignedBitMatrix :=
  let temp := dualMatrix.get rowIndex columnIndex
  (dualMatrix.set rowIndex columnIndex
    (dualMatrix.get rowIndex (columnIndex + halfColumnIndex))).set rowIndex
      (columnIndex + halfColumnIndex) temp

/-- The echelon form of the generators with the `X` bits and the `Z` bits exchanged. -/
def dualStandardGeneratorMatrixOf (group : PauliGroup) : AlignedBitMatrix :=
  let dualMatrix := group.echelonForm.matrix
  let halfColumnIndex := dualMatrix.columnCount / 2
  (List.range dualMatrix.rowCount).foldl (fun dualMatrix rowIndex =>
    (List.range halfColumnIndex).foldl (fun dualMatrix columnIndex =>
      exchangeHalves halfColumnIndex dualMatrix rowIndex columnIndex) dualMatrix) dualMatrix

/-- The positions of the qubits of the group outside a support. -/
def complementarySupportOf (support : List ℕ) (group : PauliGroup) : List ℕ :=
  (group.support.zipIdx.filter fun entry => decide (entry.1 ∉ support)).map Prod.snd

/-- The units of the `X` bits and then of the `Z` bits at some positions. -/
def sparseBasisMatrix (support : List ℕ) (columnCount : ℕ) : AlignedBitMatrix :=
  let midcolumnIndex := columnCount / 2
  support.zipIdx.foldl (fun matrix entry =>
    (matrix.set entry.2 entry.1 true).set (entry.2 + support.length) (entry.1 + midcolumnIndex)
      true) (.zeros (2 * support.length) columnCount)

/-- The Paulis `X` and `Z` on the qubits of a support that are not excluded. -/
def basisOver (support excluding : List ℕ) : List PauliUnitary :=
  (support.filter fun index => decide (index ∉ excluding)).flatMap fun index =>
    [PauliUnitary.x index, PauliUnitary.z index]

/-- The Paulis on a support that commute with a group. -/
def centralizerWithin (support : List ℕ) (group : PauliGroup) : PauliGroup :=
  let dualMatrix := dualStandardGeneratorMatrixOf group
  let unsupport := complementarySupportOf support group
  let unmatrix := sparseBasisMatrix unsupport (group.support.length * 2)
  let matrix := rowStacked [dualMatrix, unmatrix]
  let kernelBasis := matrix.kernelBasisMatrix
  let complexPhase := { PauliUnitary.neutralElement with xzPhaseExp := 1 }
  ⟨asSparsePaulis kernelBasis group.support ++ basisOver support group.support ++ [complexPhase]⟩

/-- The Paulis on the qubits of a group that commute with it. -/
def centralizerOf (group : PauliGroup) : PauliGroup :=
  centralizerWithin group.support group

/-- The column at which the other half has the entry of a column. -/
def otherHalf (half j : ℕ) : ℕ :=
  if j < half then j + half else j - half

theorem get_foldl_exchangeHalves {half rowIndex n : ℕ} {m : AlignedBitMatrix}
    (hrow : rowIndex < m.rowCount) (hn : n ≤ half) :
    let exchanged := (List.range n).foldl (fun m columnIndex =>
      exchangeHalves half m rowIndex columnIndex) m
    (exchanged.rowCount = m.rowCount ∧ exchanged.columnCount = m.columnCount) ∧
      ∀ i j, exchanged.get i j =
        if i = rowIndex ∧ (j < n ∨ half ≤ j ∧ j < half + n) then m.get i (otherHalf half j)
        else m.get i j := by
  induction n with
  | zero =>
    refine ⟨⟨rfl, rfl⟩, fun i j => ?_⟩
    rw [if_neg (by omega)]
    rfl
  | succ n ih =>
    obtain ⟨⟨hrows, hcolumns⟩, hget⟩ := ih (by omega)
    rw [range_succ, foldl_append, foldl_cons, foldl_nil]
    set exchanged := (List.range n).foldl (fun m columnIndex =>
      exchangeHalves half m rowIndex columnIndex) m with hexchanged
    refine ⟨⟨hrows, hcolumns⟩, fun i j => ?_⟩
    have hlt : rowIndex < exchanged.rowCount := by omega
    rw [exchangeHalves, get_set (by rw [rowCount_set]; exact hlt), get_set hlt, hget, hget, hget]
    by_cases hi : i = rowIndex
    · subst hi
      rcases eq_or_ne j (n + half) with rfl | hj
      · rw [if_pos ⟨rfl, rfl⟩, if_neg (by omega), if_pos (by omega), otherHalf,
          if_neg (by omega), Nat.add_sub_cancel]
      · rw [if_neg (by omega)]
        rcases eq_or_ne j n with rfl | hj'
        · rw [if_pos ⟨rfl, rfl⟩, if_neg (by omega), if_pos (by omega), otherHalf,
            if_pos (by omega)]
        · rw [if_neg (by omega)]
          exact if_congr (by omega) rfl rfl
    · rw [if_neg (by omega), if_neg (by omega), if_neg (by omega), if_neg (by omega)]

section Matrices

variable (group : PauliGroup)

theorem columnCount_echelonForm :
    group.echelonForm.matrix.columnCount = 2 * group.support.length := by
  rw [group.eliminated_echelonForm.transforms.columnCount, (row_asBitmatrix _ _).1.2]

theorem get_foldl_rows (half : ℕ) {n : ℕ} {m : AlignedBitMatrix} (hn : n ≤ m.rowCount) :
    let exchanged := (List.range n).foldl (fun m rowIndex =>
      (List.range half).foldl (fun m columnIndex =>
        exchangeHalves half m rowIndex columnIndex) m) m
    (exchanged.rowCount = m.rowCount ∧ exchanged.columnCount = m.columnCount) ∧
      ∀ i j, exchanged.get i j =
        if i < n ∧ j < 2 * half then m.get i (otherHalf half j) else m.get i j := by
  induction n with
  | zero =>
    refine ⟨⟨rfl, rfl⟩, fun i j => ?_⟩
    rfl
  | succ n ih =>
    obtain ⟨⟨hrows, hcolumns⟩, hget⟩ := ih (by omega)
    rw [range_succ, foldl_append, foldl_cons, foldl_nil]
    obtain ⟨⟨hrows', hcolumns'⟩, hget'⟩ := get_foldl_exchangeHalves
      (show n < _ by rw [hrows]; omega) (le_refl half)
    refine ⟨⟨hrows'.trans hrows, hcolumns'.trans hcolumns⟩, fun i j => ?_⟩
    rw [hget', hget, hget]
    rcases Nat.lt_trichotomy i n with hi | rfl | hi
    · rw [if_neg (by omega)]
      exact if_congr (by omega) rfl rfl
    · rw [if_neg (by omega : ¬ (i < i ∧ _)), if_neg (by omega : ¬ (i < i ∧ _))]
      exact if_congr (by omega) rfl rfl
    · rw [if_neg (by omega), if_neg (by omega), if_neg (by omega)]

theorem dualStandardGeneratorMatrixOf_spec :
    ((dualStandardGeneratorMatrixOf group).rowCount = group.generators.length ∧
      (dualStandardGeneratorMatrixOf group).columnCount = 2 * group.support.length) ∧
      ∀ i j, j < 2 * group.support.length → (dualStandardGeneratorMatrixOf group).get i j =
        group.echelonForm.matrix.get i (otherHalf group.support.length j) := by
  have hhalf : group.echelonForm.matrix.columnCount / 2 = group.support.length := by
    rw [columnCount_echelonForm]
    omega
  obtain ⟨⟨hrows, hcolumns⟩, hget⟩ := get_foldl_rows group.support.length
    (le_refl group.echelonForm.matrix.rowCount)
  simp only [dualStandardGeneratorMatrixOf, hhalf]
  refine ⟨⟨hrows.trans group.rowCount_echelonForm,
    hcolumns.trans group.columnCount_echelonForm⟩, fun i j hj => ?_⟩
  rw [hget]
  split_ifs with hin
  · rfl
  · have hout : group.echelonForm.matrix.rowCount ≤ i := by omega
    rw [get_eq_false_of_le hout, get_eq_false_of_le hout]

theorem mem_complementarySupportOf {support : List ℕ} {j : ℕ} :
    j ∈ complementarySupportOf support group ↔
      ∃ hj : j < group.support.length, group.support[j] ∉ support := by
  unfold complementarySupportOf
  rw [mem_map]
  constructor
  · rintro ⟨⟨q, i⟩, hmem, rfl⟩
    obtain ⟨hentry, hnot⟩ := List.mem_filter.mp hmem
    obtain ⟨hi, hq⟩ := List.getElem?_eq_some_iff.mp (List.mem_zipIdx_iff_getElem?.mp hentry)
    exact ⟨hi, hq ▸ of_decide_eq_true hnot⟩
  · rintro ⟨hj, hnot⟩
    refine ⟨(group.support[j], j), List.mem_filter.mpr ⟨?_, decide_eq_true hnot⟩, rfl⟩
    exact List.mem_zipIdx_iff_getElem?.mpr (List.getElem?_eq_getElem hj)

end Matrices

/-- The entries that the basis matrix sets, with their rows. -/
def basisEntries (positions : List ℕ) (half : ℕ) : List (ℕ × ℕ) :=
  positions.zipIdx.flatMap fun entry =>
    [(entry.2, entry.1), (entry.2 + positions.length, entry.1 + half)]

theorem mem_basisEntries {positions : List ℕ} {half i j : ℕ} (hi : i < positions.length) :
    ((i, j) ∈ basisEntries positions half ↔ j = positions[i]) ∧
      ((i + positions.length, j) ∈ basisEntries positions half ↔ j = positions[i] + half) := by
  have hentry : ∀ q k, (q, k) ∈ positions.zipIdx ↔ ∃ hk : k < positions.length, positions[k] = q :=
    fun q k => List.mem_zipIdx_iff_getElem?.trans List.getElem?_eq_some_iff
  unfold basisEntries
  rw [List.mem_flatMap, List.mem_flatMap]
  constructor
  · constructor
    · rintro ⟨⟨q, k⟩, hmem, hwrite⟩
      obtain ⟨hk, rfl⟩ := (hentry q k).mp hmem
      simp only [List.mem_cons, Prod.mk.injEq, List.not_mem_nil, or_false] at hwrite
      rcases hwrite with ⟨rfl, rfl⟩ | ⟨h, _⟩
      · rfl
      · omega
    · rintro rfl
      exact ⟨(positions[i], i), (hentry _ _).mpr ⟨hi, rfl⟩, by simp⟩
  · constructor
    · rintro ⟨⟨q, k⟩, hmem, hwrite⟩
      obtain ⟨hk, rfl⟩ := (hentry q k).mp hmem
      simp only [List.mem_cons, Prod.mk.injEq, List.not_mem_nil, or_false] at hwrite
      rcases hwrite with ⟨h, _⟩ | ⟨h, rfl⟩
      · omega
      · obtain rfl : i = k := by omega
        rfl
    · rintro rfl
      exact ⟨(positions[i], i), (hentry _ _).mpr ⟨hi, rfl⟩, by simp⟩

theorem sparseBasisMatrix_spec (positions : List ℕ) (half : ℕ) :
    ((sparseBasisMatrix positions (half * 2)).rowCount = 2 * positions.length ∧
      (sparseBasisMatrix positions (half * 2)).columnCount = half * 2) ∧
      ∀ i (hi : i < positions.length),
        (sparseBasisMatrix positions (half * 2)).row i = unit positions[i] ∧
          (sparseBasisMatrix positions (half * 2)).row (i + positions.length) =
            unit (positions[i] + half) := by
  have hfold : sparseBasisMatrix positions (half * 2) = (basisEntries positions half).foldl
      (fun m entry => m.set entry.1 entry.2 true)
        (zeros (2 * positions.length) (half * 2)) := by
    rw [sparseBasisMatrix, basisEntries, foldl_flatMap, Nat.mul_div_cancel _ (by omega)]
    rfl
  obtain ⟨hshape, hget⟩ := get_foldl_set Prod.fst Prod.snd (fun _ => true) (fun _ _ => true)
    (l := basisEntries positions half) (m := zeros (2 * positions.length) (half * 2))
    (fun entry hentry => by
      obtain ⟨⟨q, k⟩, hmem, hwrite⟩ := List.mem_flatMap.mp hentry
      obtain ⟨hk, _⟩ := List.getElem?_eq_some_iff.mp (List.mem_zipIdx_iff_getElem?.mp hmem)
      simp only [List.mem_cons, List.not_mem_nil, or_false] at hwrite
      rw [rowCount_zeros]
      rcases hwrite with rfl | rfl <;> simp only at hk ⊢ <;> omega) fun _ _ => rfl
  rw [← hfold] at hshape hget
  have hindex : ∀ i j, ((sparseBasisMatrix positions (half * 2)).row i).index j =
      decide ((i, j) ∈ basisEntries positions half) := by
    intro i j
    refine (hget i j).trans ?_
    by_cases hmem : (i, j) ∈ basisEntries positions half
    · rw [if_pos ⟨(i, j), hmem, rfl, rfl⟩, decide_eq_true hmem]
    · rw [if_neg, decide_eq_false hmem, AlignedBitMatrix.get, row_zeros, index_zero]
      rintro ⟨entry, hentry, rfl, rfl⟩
      exact hmem hentry
  refine ⟨⟨hshape.1.trans (rowCount_zeros _ _), hshape.2⟩, fun i hi => ⟨?_, ?_⟩⟩
  · refine ext_index fun j => ?_
    rw [hindex, index_unit]
    exact decide_eq_decide.mpr ((mem_basisEntries hi).1.trans eq_comm)
  · refine ext_index fun j => ?_
    rw [hindex, index_unit]
    exact decide_eq_decide.mpr ((mem_basisEntries hi).2.trans eq_comm)

variable {e : PhasedPauli} {v : Bits}

section Kernel

variable (support : List ℕ) (group : PauliGroup)

/-- The matrix whose kernel gives the generators. -/
def centralizerMatrix : AlignedBitMatrix :=
  rowStacked [dualStandardGeneratorMatrixOf group,
    sparseBasisMatrix (complementarySupportOf support group) (group.support.length * 2)]

/-- The operator that a row stands for. -/
def decoded (v : Bits) : PhasedPauli :=
  ⟨0, decodeX group.support v, decodeZ group.support v⟩

theorem anti_decoded_add (a b : Bits) (e : PhasedPauli) : anti (group.decoded (a + b)) e =
      (anti (group.decoded a) e ^^ anti (group.decoded b) e) := by
  rw [← anti_mul_left]
  simp only [anti, decoded, mul_xBits, mul_zBits, decodeX_add, decodeZ_add]

theorem anti_decoded_unit {j : ℕ} (hj : j < 2 * group.support.length) {row : Bits}
    (hrow : row.Below (2 * group.support.length))
    (hx : decodeX group.support row = e.xBits) (hz : decodeZ group.support row = e.zBits) :
    anti (group.decoded (unit j)) e = row.index (otherHalf group.support.length j) := by
  have hunit : ∀ b : ℕ, b < group.support.length →
      atPositions group.support (unit b) = unit (group.support.getD b 0) :=
    fun b _ => combine_unit _ b
  have hzero : atPositions group.support 0 = 0 := combine_zero _
  rw [anti, decoded, decodeX, decodeZ, low_unit, shiftDown_unit, otherHalf]
  split_ifs with hlt
  · obtain ⟨_, hread⟩ := index_decode group.nodup_support hrow hlt
    rw [hunit j hlt, hzero, dot_zero_left, Bool.xor_false, dot_unit_left, ← hz,
      getD_eq_getElem _ _ hlt, hread, Nat.add_comm]
  · have hlt' : j - group.support.length < group.support.length := by omega
    obtain ⟨hread, _⟩ := index_decode group.nodup_support hrow hlt'
    rw [hzero, hunit _ hlt', dot_zero_left, Bool.false_xor, dot_unit_left, ← hx,
      getD_eq_getElem _ _ hlt', hread]

theorem dot_dual_row (i : ℕ) (hv : v.Below (2 * group.support.length)) :
    Bits.dot ((dualStandardGeneratorMatrixOf group).row i) v =
      anti (group.decoded v) (group.standardProduct i) := by
  obtain ⟨_, hget⟩ := group.dualStandardGeneratorMatrixOf_spec
  obtain ⟨hx, hz⟩ := group.decode_row i
  induction v using unit_induction with
  | zero =>
    rw [dot_zero_right, anti, decoded, decodeX_zero, decodeZ_zero, dot_zero_left, dot_zero_left]
    rfl
  | unit_add j v hj ih =>
    have hlt : j < 2 * group.support.length := hv.lt_of_index (by simp [hj])
    have hrest : v.Below (2 * group.support.length) := by
      have h := (below_unit.mpr hlt).add hv
      rwa [add_add_cancel_left] at h
    rw [dot_add_right, ih hrest, anti_decoded_add,
      group.anti_decoded_unit hlt (group.below_row_echelonForm i) hx hz, dot_unit_right]
    exact congrArg (· ^^ _) (hget i j hlt)

/-- The kernel is made of the rows whose operators commute with the group and stand on the
support. -/
theorem mulVec_centralizerMatrix_iff (hv : v.Below (2 * group.support.length)) :
    (centralizerMatrix support group).mulVec v = 0 ↔
      (∀ i < group.generators.length, anti (group.decoded v) (group.standardProduct i) = false) ∧
        ∀ q, (group.decoded v).xBits.index q = true ∨ (group.decoded v).zBits.index q = true →
          q ∈ support := by
  obtain ⟨⟨hrows, _⟩, _⟩ := group.dualStandardGeneratorMatrixOf_spec
  obtain ⟨⟨hunits, _⟩, hunit⟩ :=
    sparseBasisMatrix_spec (complementarySupportOf support group) group.support.length
  have hrow := fun i => row_rowStacked (dualStandardGeneratorMatrixOf group)
    (sparseBasisMatrix (complementarySupportOf support group) (group.support.length * 2)) i
  rw [hrows] at hrow
  constructor
  · intro hzero
    have hdot : ∀ i, Bits.dot ((centralizerMatrix support group).row i) v = false := by
      intro i
      rw [← index_mulVec, hzero, index_zero]
    refine ⟨fun i hi => ?_, fun q hq => ?_⟩
    · rw [← group.dot_dual_row i hv, ← hdot i, centralizerMatrix, hrow, if_pos hi]
    · obtain ⟨j, hj, rfl⟩ :=
        mem_iff_getElem.mp (mem_of_index_decode group.nodup_support hv hq)
      by_contra hout
      obtain ⟨k, hk, hkj⟩ := mem_iff_getElem.mp
        (group.mem_complementarySupportOf.mpr ⟨hj, hout⟩)
      obtain ⟨hfirst, hsecond⟩ := hunit k hk
      obtain ⟨hreadX, hreadZ⟩ := index_decode group.nodup_support hv hj
      have hx := hdot (group.generators.length + k)
      have hz :=
        hdot (group.generators.length + (k + (complementarySupportOf support group).length))
      rw [centralizerMatrix, hrow, if_neg (by omega), Nat.add_sub_cancel_left, hfirst, hkj,
        dot_unit_left, ← hreadX] at hx
      rw [centralizerMatrix, hrow, if_neg (by omega), Nat.add_sub_cancel_left, hsecond, hkj,
        dot_unit_left, Nat.add_comm, ← hreadZ] at hz
      rcases hq with hq | hq
      · exact absurd (hx.symm.trans hq) (by decide)
      · exact absurd (hz.symm.trans hq) (by decide)
  · rintro ⟨hanti, hsupport⟩
    have hclear : ∀ k (hk : k < (complementarySupportOf support group).length),
        v.index (complementarySupportOf support group)[k] = false ∧
          v.index ((complementarySupportOf support group)[k] + group.support.length) = false := by
      intro k hk
      obtain ⟨hj, hout⟩ := group.mem_complementarySupportOf.mp (getElem_mem hk)
      obtain ⟨hreadX, hreadZ⟩ := index_decode group.nodup_support hv hj
      rw [← hreadX, Nat.add_comm, ← hreadZ]
      constructor
      · exact Bool.eq_false_iff.mpr fun h => hout (hsupport _ (Or.inl h))
      · exact Bool.eq_false_iff.mpr fun h => hout (hsupport _ (Or.inr h))
    refine ext_index fun i => ?_
    rw [index_mulVec, index_zero, centralizerMatrix, hrow]
    split_ifs with hi
    · rw [group.dot_dual_row i hv, hanti i hi]
    · generalize i - group.generators.length = k
      rcases Nat.lt_or_ge k (complementarySupportOf support group).length with hk | hk
      · rw [(hunit k hk).1, dot_unit_left, (hclear k hk).1]
      · rcases Nat.lt_or_ge k (2 * (complementarySupportOf support group).length) with hk' | hk'
        · obtain ⟨k, rfl⟩ := Nat.exists_eq_add_of_le' hk
          rw [(hunit k (by omega)).2, dot_unit_left, (hclear k (by omega)).2]
        · rw [row_of_le (by omega), dot_zero_left]

end Kernel

section Centralizer

variable (support : List ℕ) (group : PauliGroup)

/-- The operator acts on qubits of a support and commutes with a group. -/
def Centralizes (e : PhasedPauli) : Prop :=
  (∀ q, e.xBits.index q = true ∨ e.zBits.index q = true → q ∈ support) ∧
    ∀ g ∈ group.toSubgroup, anti e g = false

theorem anti_toSubgroup_iff : (∀ g ∈ group.toSubgroup, anti e g = false) ↔
      ∀ i < group.generators.length, anti e (group.standardProduct i) = false := by
  refine ⟨fun h i _ => h _ (group.standardProduct_mem i), fun h g hg => ?_⟩
  rw [toSubgroup_eq] at hg
  obtain ⟨c, hc, hx, hz⟩ := group.standardFamily.exists_combine hg
  have hbits : anti e g = anti e (orderedProd group.standardProduct c) := by
    rw [anti, anti, hx, hz, xBits_orderedProd, zBits_orderedProd]
    rfl
  rw [hbits, orderedProd]
  have hlist : ∀ l : List ℕ, (∀ i ∈ l, i < group.generators.length) →
      anti e (l.map group.standardProduct).prod = false := by
    intro l hl
    induction l with
    | nil => exact anti_one_right e
    | cons i l ih =>
      rw [map_cons, prod_cons, anti_mul_right, h i (hl i (by simp)),
        ih fun j hj => hl j (by simp [hj])]
      rfl
  exact hlist c.support fun i hi => hc.lt_of_index (mem_support.mp hi)

/-- Operators that act on qubits of a support and commute with a group are a group. -/
def centralizerSubgroup : Subgroup PhasedPauli where
  carrier := {e | Centralizes support group e}
  one_mem' := by
    refine ⟨fun q hq => ?_, fun g _ => anti_one_left g⟩
    simp at hq
  mul_mem' := by
    rintro e f ⟨he, he'⟩ ⟨hf, hf'⟩
    refine ⟨fun q hq => ?_, fun g hg => ?_⟩
    · rw [mul_xBits, mul_zBits, index_add, index_add] at hq
      by_contra hout
      have hclear : ∀ {p : PhasedPauli},
          (∀ q, p.xBits.index q = true ∨ p.zBits.index q = true → q ∈ support) →
            p.xBits.index q = false ∧ p.zBits.index q = false := fun hp =>
        ⟨Bool.eq_false_iff.mpr fun h => hout (hp q (Or.inl h)),
          Bool.eq_false_iff.mpr fun h => hout (hp q (Or.inr h))⟩
      rw [(hclear he).1, (hclear he).2, (hclear hf).1, (hclear hf).2] at hq
      simp at hq
    · rw [anti_mul_left, he' g hg, hf' g hg]
      rfl
  inv_mem' := by
    rintro e ⟨he, he'⟩
    exact ⟨he, fun g hg => (anti_inv_left e g).trans (he' g hg)⟩

theorem mem_rowSpace_kernel_iff :
    v ∈ rowSpace (centralizerMatrix support group).kernelBasisMatrix.rowCount
        (centralizerMatrix support group).kernelBasisMatrix.row ↔
      v.Below (2 * group.support.length) ∧ group.decoded v ∈ centralizerSubgroup support group := by
  obtain ⟨_, _, hmem⟩ := (centralizerMatrix support group).kernelBasisMatrix_spec
  have hcolumns : (centralizerMatrix support group).columnCount = 2 * group.support.length := by
    have h := (sparseBasisMatrix_spec (complementarySupportOf support group)
      group.support.length).1.2
    rw [centralizerMatrix, columnCount_rowStacked, h, Nat.mul_comm]
  rw [hmem, hcolumns]
  refine and_congr_right fun hv => ?_
  rw [mulVec_centralizerMatrix_iff support group hv, ← anti_toSubgroup_iff, and_comm]
  rfl

theorem toPhased_asSparsePauli_kernel (hv : v.Below (2 * group.support.length)) :
    (asSparsePauli v 0 group.support).toPhased = group.decoded v := by
  obtain ⟨hx, hz⟩ := asSparsePauli_bits group.nodup_support hv 0
  exact PhasedPauli.ext rfl hx hz

theorem index_eq_false_of_notMem_support {q : ℕ} (hq : q ∉ group.support) {g : PhasedPauli}
    (hg : g ∈ group.toSubgroup) : g.xBits.index q = false ∧ g.zBits.index q = false :=
  ⟨Bool.eq_false_iff.mpr fun h => hq (group.mem_support_iff.mpr ⟨g, hg, Or.inl h⟩),
    Bool.eq_false_iff.mpr fun h => hq (group.mem_support_iff.mpr ⟨g, hg, Or.inr h⟩)⟩

theorem mem_basisOver {excluding : List ℕ} {p : PauliUnitary} : p ∈ basisOver support excluding ↔
      ∃ q ∈ support, q ∉ excluding ∧ (p = PauliUnitary.x q ∨ p = PauliUnitary.z q) := by
  simp only [basisOver, List.mem_flatMap, List.mem_filter, decide_eq_true_eq, List.mem_cons,
    List.not_mem_nil, or_false, and_assoc]

theorem toSubgroup_centralizerWithin_le :
    (centralizerWithin support group).toSubgroup ≤ centralizerSubgroup support group := by
  refine (Subgroup.closure_le _).mpr ?_
  rintro _ ⟨p, hp, rfl⟩
  rcases mem_append.mp hp with hp | hp
  · rcases mem_append.mp hp with hp | hp
    · obtain ⟨i, hi, rfl⟩ := mem_map.mp hp
      obtain ⟨hv, hmem⟩ := (mem_rowSpace_kernel_iff support group).mp
        (row_mem_rowSpace _ (mem_range.mp hi))
      have heq := group.toPhased_asSparsePauli_kernel hv
      exact heq ▸ hmem
    · obtain ⟨q, hq, hout, rfl | rfl⟩ := (mem_basisOver support).mp hp
      · refine ⟨fun q' hq' => ?_, fun g hg => ?_⟩
        · simp only [PauliUnitary.toPhased_x, X_xBits, X_zBits, index_unit, index_zero,
            decide_eq_true_eq, Bool.false_eq_true, or_false] at hq'
          exact hq' ▸ hq
        · rw [PauliUnitary.toPhased_x, anti_X_left]
          exact (group.index_eq_false_of_notMem_support hout hg).2
      · refine ⟨fun q' hq' => ?_, fun g hg => ?_⟩
        · simp only [PauliUnitary.toPhased_z, Z_xBits, Z_zBits, index_unit, index_zero,
            decide_eq_true_eq, Bool.false_eq_true, false_or] at hq'
          exact hq' ▸ hq
        · rw [PauliUnitary.toPhased_z, anti_Z_left]
          exact (group.index_eq_false_of_notMem_support hout hg).1
  · rw [mem_singleton.mp hp]
    refine ⟨fun q hq => ?_, fun g _ => anti_iPow_left _ g⟩
    simp [PauliUnitary.neutralElement] at hq

theorem iPow_mem_centralizerWithin (k : ZMod 4) :
    iPow k ∈ (centralizerWithin support group).toSubgroup := by
  have hone : iPow 1 ∈ (centralizerWithin support group).toSubgroup :=
    mem_generatedBy (g := { PauliUnitary.neutralElement with xzPhaseExp := 1 })
      (mem_append_right _ (mem_singleton.mpr rfl))
  refine iPow_mem_of_le (G := ⊤) (fun _ => hone) (fun _ => ?_) (Subgroup.mem_top _)
  exact (centralizerWithin support group).iPow_two_mem hone

theorem mem_centralizerWithin_of_bits {e f : PhasedPauli}
    (hf : f ∈ (centralizerWithin support group).toSubgroup) (hx : f.xBits = e.xBits)
    (hz : f.zBits = e.zBits) : e ∈ (centralizerWithin support group).toSubgroup := by
  rw [eq_iPow_mul_of_bits hx hz]
  exact Subgroup.mul_mem _ (iPow_mem_centralizerWithin support group _) hf

theorem orderedProd_mem_centralizerWithin {f : ℕ → PhasedPauli} {t : Bits}
    (hf : ∀ i, t.index i = true → f i ∈ (centralizerWithin support group).toSubgroup) :
    orderedProd f t ∈ (centralizerWithin support group).toSubgroup :=
  orderedProd_induction (Subgroup.one_mem _) (fun _ _ => Subgroup.mul_mem _) hf

theorem mem_of_notMem_support (he : ∀ q, e.xBits.index q = true ∨ e.zBits.index q = true →
      q ∈ support ∧ q ∉ group.support) : e ∈ (centralizerWithin support group).toSubgroup := by
  have hbasis : ∀ q, q ∈ support ∧ q ∉ group.support →
      X q ∈ (centralizerWithin support group).toSubgroup ∧
        Z q ∈ (centralizerWithin support group).toSubgroup := by
    rintro q ⟨hq, hout⟩
    constructor
    · exact mem_generatedBy (g := PauliUnitary.x q) (mem_append_left _
        (mem_append_right _ ((mem_basisOver support).mpr ⟨q, hq, hout, Or.inl rfl⟩)))
    · exact mem_generatedBy (g := PauliUnitary.z q) (mem_append_left _
        (mem_append_right _ ((mem_basisOver support).mpr ⟨q, hq, hout, Or.inr rfl⟩)))
  have hx := orderedProd_mem_centralizerWithin support group (f := X) (t := e.xBits)
    fun q hq => (hbasis q (he q (Or.inl hq))).1
  have hz := orderedProd_mem_centralizerWithin support group (f := Z) (t := e.zBits)
    fun q hq => (hbasis q (he q (Or.inr hq))).2
  refine mem_centralizerWithin_of_bits support group (Subgroup.mul_mem _ hx hz) ?_ ?_
  · rw [mul_xBits, xBits_orderedProd, xBits_orderedProd]
    simp only [X_xBits, Z_xBits]
    rw [combine_units, combine_eq_zero _ fun _ _ => rfl, add_zero]
  · rw [mul_zBits, zBits_orderedProd, zBits_orderedProd]
    simp only [X_zBits, Z_zBits]
    rw [combine_units, combine_eq_zero _ fun _ _ => rfl, zero_add]

theorem mem_of_mem_support (he : e ∈ centralizerSubgroup support group)
    (hsupport : ∀ q, e.xBits.index q = true ∨ e.zBits.index q = true → q ∈ group.support) :
    e ∈ (centralizerWithin support group).toSubgroup := by
  have hx : ∀ q, e.xBits.index q = true → q ∈ group.support := fun q hq => hsupport q (Or.inl hq)
  have hz : ∀ q, e.zBits.index q = true → q ∈ group.support := fun q hq => hsupport q (Or.inr hq)
  obtain ⟨hdx, hdz⟩ := decode_encode group.nodup_support hx hz
  have hdecoded : group.decoded (encode group.support e.xBits e.zBits) ∈
      centralizerSubgroup support group := by
    obtain ⟨hin, hanti⟩ := he
    refine ⟨fun q hq => hin q ?_, fun g hg => ?_⟩
    · rwa [decoded, hdx, hdz] at hq
    · rw [anti, decoded, hdx, hdz]
      exact hanti g hg
  obtain ⟨t, ht, heq⟩ := mem_rowSpace.mp
    ((mem_rowSpace_kernel_iff support group).mpr ⟨below_encode hx hz, hdecoded⟩)
  have hrow : ∀ i, t.index i = true →
      group.decoded ((centralizerMatrix support group).kernelBasisMatrix.row i) ∈
        (centralizerWithin support group).toSubgroup := by
    intro i hi
    have hlt := ht.lt_of_index hi
    obtain ⟨hv, _⟩ := (mem_rowSpace_kernel_iff support group).mp (row_mem_rowSpace _ hlt)
    rw [← group.toPhased_asSparsePauli_kernel hv]
    exact mem_generatedBy (mem_append_left _ (mem_append_left _
      (mem_map.mpr ⟨i, mem_range.mpr hlt, rfl⟩)))
  refine mem_centralizerWithin_of_bits support group
    (orderedProd_mem_centralizerWithin support group hrow) ?_ ?_
  · rw [xBits_orderedProd, ← hdx, ← heq, decodeX_combine]
    simp only [decoded]
  · rw [zBits_orderedProd, ← hdz, ← heq, decodeZ_combine]
    simp only [decoded]

theorem centralizerSubgroup_le :
    centralizerSubgroup support group ≤ (centralizerWithin support group).toSubgroup := by
  rintro e he
  -- The factor outside the group is generated, so the factor on the group is in the centralizer.
  let outside : PhasedPauli :=
    ⟨0, e.xBits + inter e.xBits (fromIndices group.support),
      e.zBits + inter e.zBits (fromIndices group.support)⟩
  have hread : ∀ (b : Bits) q, (b + inter b (fromIndices group.support)).index q = true →
      b.index q = true ∧ q ∉ group.support := by
    intro b q hq
    cases hb : b.index q <;> simp_all
  have hcancel : ∀ (b : Bits) q,
      (b + (b + inter b (fromIndices group.support))).index q = true →
        q ∈ group.support := by
    intro b q hq
    rw [add_add_cancel_left, index_inter, index_fromIndices, Bool.and_eq_true] at hq
    exact of_decide_eq_true hq.2
  have hout : outside ∈ (centralizerWithin support group).toSubgroup := by
    refine mem_of_notMem_support support group fun q hq => ?_
    rcases hq with hq | hq
    · exact ⟨he.1 q (Or.inl (hread _ q hq).1), (hread _ q hq).2⟩
    · exact ⟨he.1 q (Or.inr (hread _ q hq).1), (hread _ q hq).2⟩
  have hin : e * outside ∈ (centralizerWithin support group).toSubgroup := by
    refine mem_of_mem_support support group
      (Subgroup.mul_mem _ he (toSubgroup_centralizerWithin_le support group hout)) fun q hq => ?_
    rcases hq with hq | hq
    · exact hcancel e.xBits q hq
    · exact hcancel e.zBits q hq
  exact (Subgroup.mul_mem_cancel_right _ hout).mp hin

/-- The computed group contains a Pauli exactly when it acts on qubits of the support only and
commutes with every element of the group. -/
theorem contains_centralizerWithin_iff (support : List ℕ) (generators : List PauliUnitary)
    (element : PauliUnitary) : (centralizerWithin support ⟨generators⟩).contains element = true ↔
      (∀ q ∈ element.support, q ∈ support) ∧
        ∀ g ∈ generatedBy generators, element.toPhased * g = g * element.toPhased := by
  rw [contains_iff, le_antisymm (toSubgroup_centralizerWithin_le support ⟨generators⟩)
    (centralizerSubgroup_le support ⟨generators⟩)]
  refine and_congr (forall_congr' fun q => ?_) (forall_congr' fun g => ?_)
  · rw [PauliUnitary.mem_support]
    rfl
  · rw [anti_eq_false_iff]
    rfl

end Centralizer

end PauliGroup

end QdkEc
