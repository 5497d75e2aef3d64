import QdkEc.Binar.FourRussians
import QdkEc.Binar.RowBasisCompletion
import QdkEc.Lib.StabilizerGroup
import QdkEc.Paulimer.CliffordGroup
import QdkEc.Paulimer.PauliSymplecticForm

/-!
# Restricting families of stabilizer groups

This module models the restriction of a family of stabilizer groups, given by an
encoder and a matrix of signs, to some qubits.  The restricted generators are
independent, and with the signs that the restricted matrix gives in a branch they
generate exactly the stabilizers of that branch on the qubits.
-/

namespace QdkEc

open PhasedPauli AlignedBitMatrix GeneratorFrame List PauliGroup

namespace AlignedBitMatrix

/-- The inverse of a matrix; `none` is a failed assertion. -/
def inverted (m : AlignedBitMatrix) : Option AlignedBitMatrix :=
  if m.columnCount = m.rowCount then
    let echelonForm := EchelonForm.new m
    if echelonForm.pivots.length = m.rowCount then some echelonForm.transform else none
  else none

end AlignedBitMatrix

/-- The matrix that takes the generators of a group to the standard generators. -/
def PauliGroup.standardTransform (group : PauliGroup) : AlignedBitMatrix :=
  group.echelonForm.transform

namespace CliffordUnitary

/-- The tableau whose preimages are products of `X` and products of `Z`. -/
def fromCssPreimageIndicators (xIndicators zIndicators : AlignedBitMatrix) : CliffordUnitary :=
  (zero xIndicators.columnCount).rewritePreimages
    (fun qubitIndex p => { p with xBits := xIndicators.row qubitIndex })
    (fun qubitIndex p => { p with zBits := zIndicators.row qubitIndex })
    (List.range xIndicators.columnCount)

/-- A basis of the products of `Z` whose images act trivially on some qubits. -/
def supportRestrictedZImagesFromSupportComplement (clifford : CliffordUnitary)
    (supportComplement : List ℕ) :
    AlignedBitMatrix :=
  let complementSize := supportComplement.length
  let a := AlignedBitMatrix.zeros (2 * complementSize) clifford.numQubits
  let a := supportComplement.zipIdx.foldl
    (fun a (qubitIndex, j) => a.setRow j (clifford.preimageXView qubitIndex).xBits) a
  let a := supportComplement.zipIdx.foldl
    (fun a (qubitIndex, j) =>
      a.setRow (j + complementSize) (clifford.preimageZView qubitIndex).xBits) a
  a.kernelBasisMatrix

/-- A basis of the products of `Z` whose images act on some qubits only. -/
def supportRestrictedZImages (clifford : CliffordUnitary) (support : List ℕ) : AlignedBitMatrix :=
  let sortedSupport := support.mergeSort
  clifford.supportRestrictedZImagesFromSupportComplement
    (AlignedBitMatrix.complement sortedSupport clifford.numQubits)

/-- The index that stands for no place in the support. -/
def noIndex : ℕ :=
  2 ^ 64 - 1

/-- The places of the qubits in the support; `none` is a qubit out of range. -/
def qubitIndexOf (numQubits : ℕ) (support : List ℕ) : Option (List ℕ) :=
  support.zipIdx.foldlM
    (fun qubitIndex (qubit, index) =>
      if qubit < qubitIndex.length then some (qubitIndex.set qubit index) else none)
    (List.replicate numQubits noIndex)

/-- Standard generators of the restriction of a family of stabilizer groups, and their signs;
`none` is a panic. -/
def standardRestrictionWithSignMatrix (encodingClifford : CliffordUnitary)
    (signMatrix : AlignedBitMatrix) (support : List ℕ) :
    Option (List PauliUnitary × AlignedBitMatrix) := do
  let restrictingTransform := encodingClifford.supportRestrictedZImages support
  let restrictionRank := restrictingTransform.rowCount
  let completion ← restrictingTransform.completeToFullRankRowBasis
  let inverse ← completion.inverted
  let restrictingClifford := fromCssPreimageIndicators completion.transposed inverse
  let restrictedClifford ← encodingClifford.multiplyWith restrictingClifford
  let qubitIndex ← qubitIndexOf encodingClifford.numQubits support
  let restrictedGroupGenerators := (List.range restrictionRank).map fun q =>
    PauliGroup.remappedSparse qubitIndex (restrictedClifford.imageZ q)
  let group : PauliGroup := ⟨restrictedGroupGenerators⟩
  let standardGenerators := group.standardGenerators.take restrictionRank
  let standardRank := group.binaryRank
  let standardGeneratorsTransform := AlignedBitMatrix.fromRowIter
    ((List.range standardRank).map group.standardTransform.row) standardRank
  let restrictedTransform ← M4ri.mul standardGeneratorsTransform restrictingTransform
  let restrictionSignMatrix ← M4ri.mul restrictedTransform signMatrix
  some (standardGenerators, restrictionSignMatrix)

end CliffordUnitary

namespace AlignedBitMatrix

theorem inverted_spec {m : AlignedBitMatrix} {n : ℕ} (hrows : m.rowCount = n)
    (hcolumns : m.columnCount = n) (hindependent : Bits.Independent n m.entries) :
    ∃ inverse, m.inverted = some inverse ∧ inverse.rowCount = n ∧
      (∀ i, i < n → (inverse.row i).Below n) ∧
        ∀ i, i < n → Bits.combine m.entries (inverse.row i) = Bits.unit i := by
  have h := EchelonForm.eliminated_new m
  have hrank : (EchelonForm.new m).pivots.length = m.rowCount :=
    (independent_entries_iff h).mp (hrows ▸ hindependent)
  refine ⟨(EchelonForm.new m).transform, ?_, ?_, fun i hi => ?_, fun i hi => ?_⟩
  · rw [inverted, if_pos (hcolumns.trans hrows.symm)]
    exact if_pos hrank
  · rw [h.transforms.transform_rowCount, hrows]
  · rw [← hrows]
    exact h.transforms.dual.below_left i (by omega)
  · rw [← entries_form h, entries_form_eq_unit h (by omega) (by omega)]

end AlignedBitMatrix

namespace M4ri

theorem mul_eq_combine {left right : AlignedBitMatrix} (hfit : left.columnCount = right.rowCount) :
    ∃ product, mul left right = some product ∧
      (product.rowCount = left.rowCount ∧ product.columnCount = right.columnCount) ∧
        ∀ i, i < left.rowCount → product.entries i =
          Bits.combine right.entries (Bits.low left.columnCount (left.row i)) := by
  obtain ⟨product, hmul, hrows, hcolumns, hget⟩ := mul_eq_dot hfit
  refine ⟨product, hmul, ⟨hrows, hcolumns⟩, fun i hi => Bits.ext_index fun j => ?_⟩
  have hlow : (fun k => Bits.low right.columnCount (right.row k)) = right.entries := rfl
  rw [entries, hcolumns, ← hlow, ← Bits.low_combine, Bits.index_low, Bits.index_low]
  rcases Nat.lt_or_ge j right.columnCount with hj | hj
  · have hentry := hget i j hi hj
    rw [AlignedBitMatrix.get, AlignedBitMatrix.get, row_dot _ _ hi] at hentry
    rw [hentry]
  · rw [decide_eq_false (by omega), Bool.false_and, Bool.false_and]

end M4ri

namespace AlignedBitMatrix

theorem zipIdx_eq_map_range (l : List ℕ) :
    l.zipIdx = (List.range l.length).map fun j => (l.getD j 0, j) := by
  refine ext_getElem (by simp) fun j hj _ => ?_
  have hlt : j < l.length := by simpa using hj
  simp [hlt]

theorem row_foldl_zipIdx (f : ℕ → Bits) (l : List ℕ) (offset : ℕ) {m : AlignedBitMatrix}
    (hm : l.length + offset ≤ m.rowCount) :
    let written := l.zipIdx.foldl (fun m (q, j) => m.setRow (j + offset) (f q)) m
    (written.rowCount = m.rowCount ∧ written.columnCount = m.columnCount) ∧
      ∀ i, written.row i =
        if offset ≤ i ∧ i < l.length + offset then f (l.getD (i - offset) 0) else m.row i := by
  have hfold : l.zipIdx.foldl (fun m (q, j) => m.setRow (j + offset) (f q)) m =
      ((List.range l.length).map (· + offset)).foldl
        (fun m i => m.setRow i (f (l.getD (i - offset) 0))) m := by
    rw [zipIdx_eq_map_range, foldl_map, foldl_map]
    simp only [Nat.add_sub_cancel]
  have hmem : ∀ i, i ∈ (List.range l.length).map (· + offset) ↔
      offset ≤ i ∧ i < l.length + offset := by
    intro i
    rw [mem_map]
    constructor
    · rintro ⟨j, hj, rfl⟩
      have := mem_range.mp hj
      omega
    · rintro ⟨hle, hlt⟩
      exact ⟨i - offset, mem_range.mpr (by omega), by omega⟩
  obtain ⟨hshape, hrow⟩ := row_foldl_setRow (fun i => f (l.getD (i - offset) 0))
    (l := (List.range l.length).map (· + offset)) (m := m) fun i hi => by
      have := (hmem i).mp hi
      omega
  rw [hfold]
  refine ⟨hshape, fun i => ?_⟩
  rw [hrow, if_congr (hmem i) rfl rfl]

end AlignedBitMatrix

namespace CliffordUnitary

section Images

variable {n : ℕ} {C : CliffordUnitary} (hC : C.ValidOn n)

include hC

theorem rowSpace_supportRestrictedZImagesFromSupportComplement (supportComplement : List ℕ) :
    let restricted := C.supportRestrictedZImagesFromSupportComplement supportComplement
    restricted.columnCount = n ∧ Bits.Independent restricted.rowCount restricted.row ∧
      ∀ t : Bits, t ∈ Bits.rowSpace restricted.rowCount restricted.row ↔
        t.Below n ∧ ∀ q ∈ supportComplement,
          Bits.dot (C.preimageXView q).xBits t = false ∧
            Bits.dot (C.preimageZView q).xBits t = false := by
  have hn := hC.numQubits_eq
  set m := supportComplement.length with hm
  obtain ⟨hshape, hrow⟩ := row_foldl_zipIdx
    (fun q => (C.preimageXView q).xBits) supportComplement 0
    (m := zeros (2 * m) C.numQubits) (by rw [rowCount_zeros]; omega)
  obtain ⟨hshape', hrow'⟩ := row_foldl_zipIdx
    (fun q => (C.preimageZView q).xBits) supportComplement m
    (m := supportComplement.zipIdx.foldl (fun a (q, j) =>
      a.setRow (j + 0) (C.preimageXView q).xBits) (zeros (2 * m) C.numQubits))
    (by rw [hshape.1, rowCount_zeros]; omega)
  set A := supportComplement.zipIdx.foldl (fun a (q, j) =>
    a.setRow (j + m) (C.preimageZView q).xBits) (supportComplement.zipIdx.foldl (fun a (q, j) =>
      a.setRow (j + 0) (C.preimageXView q).xBits) (zeros (2 * m) C.numQubits))
    with hA
  have hrestricted : C.supportRestrictedZImagesFromSupportComplement supportComplement =
      A.kernelBasisMatrix := rfl
  have hcolumns : A.columnCount = n := hshape'.2.trans (hshape.2.trans hn)
  have hrows : A.rowCount = 2 * m := by rw [hshape'.1, hshape.1, rowCount_zeros]
  obtain ⟨hcolumnCount, hindependent, hspan⟩ := A.kernelBasisMatrix_spec
  rw [hrestricted]
  refine ⟨hcolumnCount.trans hcolumns, hindependent, fun t => ?_⟩
  rw [hspan, hcolumns]
  refine and_congr_right fun _ => ?_
  have hread : ∀ j (hj : j < m), A.row j = (C.preimageXView supportComplement[j]).xBits ∧
      A.row (j + m) = (C.preimageZView supportComplement[j]).xBits := by
    intro j hj
    rw [hrow', hrow', if_neg (by omega), if_pos (by omega), hrow, if_pos (by omega),
      Nat.sub_zero, Nat.add_sub_cancel, getD_eq_getElem _ _ hj]
    exact ⟨rfl, rfl⟩
  constructor
  · intro hzero q hq
    obtain ⟨j, hj, rfl⟩ := mem_iff_getElem.mp hq
    obtain ⟨hx, hz⟩ := hread j hj
    rw [← hx, ← hz, ← index_mulVec, ← index_mulVec, hzero]
    exact ⟨Bits.index_zero j, Bits.index_zero (j + m)⟩
  · intro h
    refine Bits.ext_index fun i => ?_
    rw [index_mulVec, Bits.index_zero]
    rcases Nat.lt_or_ge i m with hi | hi
    · rw [(hread i hi).1]
      exact (h _ (getElem_mem hi)).1
    · rcases Nat.lt_or_ge (i - m) m with hi' | hi'
      · have hz := (hread (i - m) hi').2
        rw [Nat.sub_add_cancel hi] at hz
        rw [hz]
        exact (h _ (getElem_mem hi')).2
      · rw [row_of_le (by omega), Bits.dot_zero_left]

end Images

theorem valid_products {u v : ℕ → Bits} (huv : ∀ i j, Bits.dot (u i) (v j) = decide (i = j)) :
    GeneratorFrame.Valid ⟨fun i => xProduct (u i), fun i => zProduct (v i)⟩ where
  orderTwo_x i := by
    rw [orderTwo_iff_phase]
    simp [xProduct]
  orderTwo_z i := by
    rw [orderTwo_iff_phase]
    simp [zProduct]
  anti_x_z i j := by simpa [anti, xProduct, zProduct] using huv i j
  anti_x_x i j := by simp [anti, xProduct]
  anti_z_z i j := by simp [anti, zProduct]

theorem orderedProd_zProduct (v : ℕ → Bits) (b : Bits) :
    Bits.orderedProd (fun i => zProduct (v i)) b = zProduct (Bits.combine v b) := by
  have hcomm : ∀ i j, zProduct (v i) * zProduct (v j) = zProduct (v j) * zProduct (v i) :=
    fun i j => by rw [← zProduct_add, ← zProduct_add, add_comm]
  have hsq : ∀ i, zProduct (v i) * zProduct (v i) = 1 :=
    fun i => by rw [← zProduct_add, Bits.add_self, zProduct_zero]
  induction b using Bits.unit_induction with
  | zero => rw [Bits.orderedProd_zero, Bits.combine_zero, zProduct_zero]
  | unit_add i b _ ih =>
    rw [Bits.orderedProd_unit_add hcomm hsq, ih, Bits.combine_unit_add, zProduct_add]

theorem lift_zProduct (u v : ℕ → Bits) (b : Bits) :
    lift ⟨fun i => xProduct (u i), fun i => zProduct (v i)⟩ (zProduct b) =
      zProduct (Bits.combine v b) := by
  rw [← orderedProd_zProduct]
  simp [lift, zProduct]

theorem fromCssPreimageIndicators_spec {n : ℕ} {m inverse : AlignedBitMatrix}
    (hrows : m.rowCount = n) (hcolumns : m.columnCount = n)
    (hbelow : ∀ i, i < n → (inverse.row i).Below n)
    (hinverse : ∀ i, i < n → Bits.combine m.entries (inverse.row i) = Bits.unit i) :
    (fromCssPreimageIndicators m.transposed inverse).ValidOn n ∧ ∀ b : Bits, b.Below n →
        (fromCssPreimageIndicators m.transposed inverse).frame.lift (zProduct b) =
          zProduct (Bits.combine inverse.row b) := by
  let u := fun i => if i < n then m.transposed.row i else Bits.unit i
  let v := fun i => if i < n then inverse.row i else Bits.unit i
  have htransposed : m.transposed.columnCount = n := hrows
  have hframe : (fromCssPreimageIndicators m.transposed inverse).frame =
      ⟨fun i => xProduct (u i), fun i => zProduct (v i)⟩ := by
    unfold fromCssPreimageIndicators
    rw [htransposed]
    refine frame_rewritePreimages_range (C := zero n) _ _ (fun i hi => ?_) (fun i hi => ?_)
      fun i hi => ?_
    · rw [numQubits_zero] at hi
      rw [preimageXView_zero]
      simp only [u, if_pos hi]
      rfl
    · rw [numQubits_zero] at hi
      rw [preimageZView_zero]
      simp only [v, if_pos hi]
      rfl
    · rw [numQubits_zero] at hi
      simp only [u, v, if_neg (Nat.not_lt.mpr hi)]
      exact ⟨rfl, rfl⟩
  have hdual : ∀ i j, Bits.dot (u i) (v j) = decide (i = j) := by
    intro i j
    by_cases hi : i < n
    · by_cases hj : j < n
      · have hrow : ∀ k, (m.entries k).index i = (m.column i).index k := by
          intro k
          rw [entries, Bits.index_low, hcolumns, decide_eq_true hi, Bool.true_and, index_column]
          rfl
        have hentry := Bits.index_combine m.entries hrow (inverse.row j)
        rw [hinverse j hj, Bits.index_unit] at hentry
        simp only [u, v, if_pos hi, if_pos hj]
        rw [row_transposed (by omega), Bits.dot_comm, ← hentry]
        simp [eq_comm]
      · have hbelow' : (m.transposed.row i).Below n := hrows ▸
          below_row_transposed m i
        simp only [u, v, if_pos hi, if_neg hj]
        rw [Bits.dot_unit_right, hbelow'.index_eq_false (by omega), decide_eq_false (by omega)]
    · by_cases hj : j < n
      · simp only [u, v, if_neg hi, if_pos hj]
        rw [Bits.dot_unit_left, (hbelow j hj).index_eq_false (by omega), decide_eq_false (by omega)]
      · simp only [u, v, if_neg hi, if_neg hj]
        simp [eq_comm]
  have hvalid := valid_products hdual
  refine ⟨validOn_iff_frame.mpr ⟨?_, hframe ▸ hvalid⟩, fun b hb => ?_⟩
  · unfold fromCssPreimageIndicators
    rw [numQubits_rewritePreimages, numQubits_zero, htransposed]
  · rw [hframe, lift_zProduct]
    congr 1
    exact Bits.combine_congr hb fun i hi => if_pos hi

section Generators

variable {n : ℕ} {C : CliffordUnitary} (hC : C.ValidOn n)

include hC

theorem restrictedClifford_spec {restricting : AlignedBitMatrix}
    (hcolumns : restricting.columnCount = n)
    (hbelow : ∀ i, i < restricting.rowCount → (restricting.row i).Below n)
    (hindependent : Bits.Independent restricting.rowCount restricting.row) :
    ∃ completion inverse restricted, restricting.completeToFullRankRowBasis = some completion ∧
      completion.inverted = some inverse ∧
        C.multiplyWith (fromCssPreimageIndicators completion.transposed inverse) = some restricted ∧
        ∀ q, q < restricting.rowCount →
          C.frame.lift (restricted.imageZ q).toPhased = zProduct (restricting.row q) := by
  have hentries : ∀ i, i < restricting.rowCount → restricting.entries i = restricting.row i := by
    intro i hi
    exact Bits.low_eq_self (by rw [hcolumns]; exact hbelow i hi)
  obtain ⟨completion, hcompletion⟩ := restricting.completeToFullRankRowBasis_spec.1.mpr
    (hindependent.congr fun i hi => (hentries i hi).symm)
  obtain ⟨_, ⟨hrows, hcolumns'⟩, hfirst, _⟩ :=
    row_completeToFullRankRowBasis hcompletion
  have hfull := independent_completion hcompletion
  rw [hcolumns] at hrows hcolumns'
  rw [hrows] at hfull
  obtain ⟨inverse, hinverted, _, hbelowInverse, hunit⟩ :=
    inverted_spec hrows hcolumns' hfull
  obtain ⟨hB, hlift⟩ := fromCssPreimageIndicators_spec hrows hcolumns' hbelowInverse hunit
  obtain ⟨restricted, hrestricted, hcount, hframe⟩ := multiplyWith_eq_some hC hB
  refine ⟨completion, inverse, restricted, hcompletion, hinverted, hrestricted, fun q hq => ?_⟩
  have hrow : completion.entries q = restricting.row q := by
    rw [entries, hfirst q hq]
    exact Bits.low_eq_self (by rw [hcolumns']; exact hbelow q hq)
  have hqn : q < n := by
    by_contra hnot
    have hzero : completion.row q = 0 := row_of_le (by omega)
    have hunitZero := hindependent (Bits.unit q) (Bits.below_unit.mpr hq)
      (by rw [Bits.combine_unit, ← hfirst q hq, hzero])
    have hbit := congrArg (·.index q) hunitZero
    simp at hbit
  have hcombine : Bits.combine inverse.row (restricting.row q) = Bits.unit q := by
    refine hfull.injOn (Bits.below_combine _ fun i hi => hbelowInverse i
      ((hbelow q hq).lt_of_index hi)) (Bits.below_unit.mpr hqn) ?_
    rw [Bits.combine_combine, Bits.combine_unit, hrow,
      Bits.combine_congr (hbelow q hq) hunit, Bits.combine_units]
  refine hB.frame.lift_injective ?_
  have hvalid : restricted.frame.Valid := hframe ▸ hB.frame.comp hC.frame
  rw [hlift _ (hbelow q hq), hcombine, ← hB.frame.lift_comp hC.frame, ← hframe,
    toPhased_imageZ hvalid (by omega), zProduct_unit]

theorem actsOn_iff_mem_rowSpace {support : List ℕ} (hsupport : ∀ q ∈ support, q < n) {σ : Bits}
    {p : PhasedPauli} (hp : p ∈ C.frame.stabilizers σ) :
    (C.frame.lift p).zBits ∈ Bits.rowSpace (C.supportRestrictedZImages support).rowCount
      (C.supportRestrictedZImages support).row ↔ p.ActsOn support := by
  have hf := hC.frame
  have hn := hC.numQubits_eq
  obtain ⟨_, _, hspace⟩ := rowSpace_supportRestrictedZImagesFromSupportComplement hC
    (complement support.mergeSort C.numQubits)
  have hx := hp.1
  have hreadX : ∀ q, q < n →
      Bits.dot (C.preimageXView q).xBits (C.frame.lift p).zBits = p.zBits.index q := by
    intro q hq
    have hanti := hf.anti_lift (X q) p
    rw [anti_X_left, lift_X, frame_x (by omega)] at hanti
    rw [← hanti, anti, hx, Bits.dot_zero_right, Bool.xor_false]
    rfl
  have hreadZ : ∀ q, q < n →
      Bits.dot (C.preimageZView q).xBits (C.frame.lift p).zBits = p.xBits.index q := by
    intro q hq
    have hanti := hf.anti_lift (Z q) p
    rw [anti_Z_left, lift_Z, frame_z (by omega)] at hanti
    rw [← hanti, anti, hx, Bits.dot_zero_right, Bool.xor_false]
    rfl
  have hbelow : (C.frame.lift p).zBits.Below n ↔ p.Below n := by
    rw [← hf.below_lift_iff (hn ▸ C.fixesFrom_frame)]
    refine ⟨fun h => ⟨?_, h⟩, fun h => h.2⟩
    rw [hx]
    exact Bits.below_zero n
  unfold supportRestrictedZImages
  rw [hspace, hbelow]
  constructor
  · rintro ⟨hpn, hclear⟩ q hq
    have hqn : q < n := hq.elim hpn.1.lt_of_index hpn.2.lt_of_index
    by_contra hnot
    have hmem : q ∈ complement support.mergeSort C.numQubits :=
      mem_complement.mpr ⟨by omega, fun h => hnot (mem_mergeSort.mp h)⟩
    obtain ⟨hz, hx'⟩ := hclear q hmem
    rw [hreadX q hqn] at hz
    rw [hreadZ q hqn] at hx'
    rcases hq with hq | hq
    · rw [hx'] at hq
      cases hq
    · rw [hz] at hq
      cases hq
  · intro hacts
    refine ⟨⟨?_, ?_⟩, fun q hq => ?_⟩
    · rw [Bits.below_iff]
      intro q hq
      by_contra hbit
      exact absurd (hsupport q (hacts q (Or.inl (Bool.not_eq_false _ ▸ hbit)))) (by omega)
    · rw [Bits.below_iff]
      intro q hq
      by_contra hbit
      exact absurd (hsupport q (hacts q (Or.inr (Bool.not_eq_false _ ▸ hbit)))) (by omega)
    · obtain ⟨hqn, hnot⟩ := mem_complement.mp hq
      have habsent : q ∉ support := fun h => hnot (mem_mergeSort.mpr h)
      rw [hreadX q (by omega), hreadZ q (by omega), ← Bool.not_eq_true, ← Bool.not_eq_true]
      exact ⟨fun h => habsent (hacts q (Or.inr h)), fun h => habsent (hacts q (Or.inl h))⟩

end Generators

theorem qubitIndexOf_spec {n : ℕ} {support : List ℕ} (hsupport : ∀ q ∈ support, q < n) :
    ∃ qubitIndex, qubitIndexOf n support = some qubitIndex ∧
      ∀ q ∈ support, qubitIndex.getD q 0 < support.length ∧
        support.getD (qubitIndex.getD q 0) 0 = q := by
  have hloop : ∀ l : List ℕ, (∀ q ∈ l, q < n) → ∃ qubitIndex : List ℕ,
      l.zipIdx.foldlM (fun qubitIndex (qubit, index) =>
        if qubit < qubitIndex.length then some (qubitIndex.set qubit index) else none)
          (List.replicate n noIndex) = some qubitIndex ∧ qubitIndex.length = n ∧
        ∀ q ∈ l, qubitIndex.getD q 0 < l.length ∧ l.getD (qubitIndex.getD q 0) 0 = q := by
    intro l
    induction l using List.reverseRecOn with
    | nil => exact fun _ => ⟨_, rfl, length_replicate, by simp⟩
    | append_singleton l last ih =>
      intro hl
      obtain ⟨qubitIndex, hrun, hlength, hplaces⟩ := ih fun q hq => hl q (by simp [hq])
      have hlast : last < qubitIndex.length := by
        rw [hlength]
        exact hl last (by simp)
      refine ⟨qubitIndex.set last l.length, ?_, by simpa using hlength, fun q hq => ?_⟩
      · rw [zipIdx_append, foldlM_append, hrun]
        simp [hlast]
      · rw [length_append, length_singleton]
        by_cases hne : last = q
        · subst hne
          have hread : (qubitIndex.set last l.length).getD last 0 = l.length := by
            simp [getD_eq_getElem?_getD, hlast]
          rw [hread]
          refine ⟨by omega, ?_⟩
          simp [getD_eq_getElem?_getD]
        · have hread : (qubitIndex.set last l.length).getD q 0 = qubitIndex.getD q 0 := by
            simp [getD_eq_getElem?_getD, hne]
          have hmem : q ∈ l := by
            rcases mem_append.mp hq with hq | hq
            · exact hq
            · exact absurd (mem_singleton.mp hq).symm hne
          obtain ⟨hlt, hat⟩ := hplaces q hmem
          rw [hread]
          refine ⟨by omega, ?_⟩
          rw [getD_append _ _ _ _ hlt, hat]
  obtain ⟨qubitIndex, hrun, _, hplaces⟩ := hloop support hsupport
  exact ⟨qubitIndex, hrun, hplaces⟩

section Moved

variable {f : GeneratorFrame} {k : ℕ} {rows : ℕ → Bits} {images : ℕ → PauliUnitary}
  {support qubitIndex : List ℕ} (hf : f.Valid) (hindependent : Bits.Independent k rows)
  (hlift : ∀ q, q < k → f.lift (images q).toPhased = zProduct (rows q))
  (hacts : ∀ q, q < k → (images q).toPhased.ActsOn support)
  (hplaces : ∀ q ∈ support, qubitIndex.getD q 0 < support.length ∧
    support.getD (qubitIndex.getD q 0) 0 = q)

/-- The group of the generators at their places in the support. -/
def movedGroup (k : ℕ) (images : ℕ → PauliUnitary) (qubitIndex : List ℕ) : PauliGroup :=
  ⟨(List.range k).map fun q => PauliGroup.remappedSparse qubitIndex (images q)⟩

def imageProduct (k : ℕ) (images : ℕ → PauliUnitary) (qubitIndex : List ℕ) (j : ℕ) : PhasedPauli :=
  Bits.orderedProd (fun q => (images q).toPhased)
    ((movedGroup k images qubitIndex).standardTransform.row j)

theorem length_movedGroup : (movedGroup k images qubitIndex).generators.length = k := by
  rw [movedGroup, length_map, length_range]

theorem dualRows_standardTransform (k : ℕ) (images : ℕ → PauliUnitary) (qubitIndex : List ℕ) :
    Bits.DualRows k (movedGroup k images qubitIndex).standardTransform.row
      (movedGroup k images qubitIndex).echelonForm.transformInvT.row := by
  have h := (movedGroup k images qubitIndex).standardFamily.dual
  rwa [length_movedGroup] at h

include hf hlift in
theorem lift_imageProduct {j : ℕ} (hj : j < k) : f.lift (imageProduct k images qubitIndex j) =
      zProduct (Bits.combine rows ((movedGroup k images qubitIndex).standardTransform.row j)) := by
  have hbelow := (dualRows_standardTransform k images qubitIndex).below_left j hj
  rw [imageProduct, ← hf.liftHom_apply, Bits.map_orderedProd, ← orderedProd_zProduct]
  exact Bits.orderedProd_congr hbelow hlift

include hindependent in
theorem independent_combine_standardTransform (images : ℕ → PauliUnitary) (qubitIndex : List ℕ) :
    Bits.Independent k fun j =>
      Bits.combine rows ((movedGroup k images qubitIndex).standardTransform.row j) := by
  have hdual := dualRows_standardTransform k images qubitIndex
  intro t ht hzero
  rw [← Bits.combine_combine] at hzero
  have hbelow : (Bits.combine (movedGroup k images qubitIndex).standardTransform.row t).Below k :=
    Bits.below_combine _ fun i hi => hdual.below_left i (ht.lt_of_index hi)
  exact hdual.combine_injective ht (Bits.below_zero k)
    ((hindependent _ hbelow hzero).trans (Bits.combine_zero _).symm)

section Relabeled

variable {σ : Equiv.Perm ℕ} (hσ : ∀ q ∈ support, σ q = qubitIndex.getD q 0)

include hacts hσ

theorem operators_movedGroup {q : ℕ} (hq : q < k) :
    (movedGroup k images qubitIndex).operators q = (images q).toPhased.remap σ := by
  have hget : (movedGroup k images qubitIndex).generators.getD q .neutralElement =
      remappedSparse qubitIndex (images q) := by
    simp [movedGroup, getD_eq_getElem?_getD, hq]
  rw [operators, hget, toPhased_remappedSparse]
  exact (hacts q hq).remap_congr fun i hi => (hσ i hi).symm

theorem standardProduct_movedGroup {j : ℕ} (hj : j < k) :
    (movedGroup k images qubitIndex).standardProduct j =
      (imageProduct k images qubitIndex j).remap σ := by
  have hvalid := valid_identity.relabel σ.injective
  rw [← lift_relabel_identity σ.injective, ← hvalid.liftHom_apply, imageProduct,
    Bits.map_orderedProd]
  refine Bits.orderedProd_congr
    ((dualRows_standardTransform k images qubitIndex).below_left j hj) fun q hq => ?_
  rw [operators_movedGroup hacts hσ hq, hvalid.liftHom_apply, lift_relabel_identity σ.injective]

include hf hlift

theorem scalar_movedGroup {c : ZMod 4} (hc : iPow c ∈ (movedGroup k images qubitIndex).toSubgroup) :
    c = 0 := by
  have hvalid := valid_identity.relabel σ.injective
  have hle : (movedGroup k images qubitIndex).toSubgroup ≤
      (hf.stabilizerGroup 0).map hvalid.liftHom := by
    rw [toSubgroup_eq, generated, Subgroup.closure_le]
    rintro _ ⟨q, rfl⟩
    rcases Nat.lt_or_ge q k with hq | hq
    · refine ⟨(images q).toPhased, ?_, ?_⟩
      · rw [SetLike.mem_coe, hf.mem_stabilizerGroup, mem_stabilizers_iff, hlift q hq]
        simp [zProduct]
      · rw [operators_movedGroup hacts hσ hq, hvalid.liftHom_apply,
          lift_relabel_identity σ.injective]
    · rw [operators_of_le _ (by rwa [length_movedGroup])]
      exact Subgroup.one_mem _
  obtain ⟨p, hp, heq⟩ := hle hc
  obtain rfl : p = iPow c := by
    refine hvalid.lift_injective ?_
    rw [lift_iPow]
    exact heq
  have hphase := hp.2
  simpa using hphase

include hindependent

theorem binaryRank_movedGroup : (movedGroup k images qubitIndex).binaryRank = k := by
  have hle := (movedGroup k images qubitIndex).binaryRank_le
  rw [length_movedGroup] at hle
  refine le_antisymm hle (Nat.le_of_not_lt fun hlt => ?_)
  obtain ⟨hx, hz⟩ := (movedGroup k images qubitIndex).standardFamily.scalar _ le_rfl
    (by rwa [length_movedGroup])
  set r := (movedGroup k images qubitIndex).binaryRank with hr
  -- The product without bits has a preimage without bits, which combines no rows.
  have hscalar : (imageProduct k images qubitIndex r).remap σ =
      iPow (imageProduct k images qubitIndex r).phase := by
    change ((movedGroup k images qubitIndex).standardProduct r).xBits = 0 at hx
    change ((movedGroup k images qubitIndex).standardProduct r).zBits = 0 at hz
    rw [standardProduct_movedGroup hacts hσ hlt] at hx hz
    ext1
    · rfl
    · exact hx
    · exact hz
  have himage : imageProduct k images qubitIndex r =
      iPow (imageProduct k images qubitIndex r).phase := by
    refine (valid_identity.relabel σ.injective).lift_injective ?_
    rw [lift_relabel_identity σ.injective, lift_iPow, hscalar]
  have hpreimage : f.lift (imageProduct k images qubitIndex r) = _ :=
    lift_imageProduct hf hlift hlt
  rw [himage, lift_iPow] at hpreimage
  have hzero := congrArg PhasedPauli.zBits hpreimage
  have hunit := independent_combine_standardTransform hindependent images qubitIndex (Bits.unit r)
    (Bits.below_unit.mpr hlt) (by rw [Bits.combine_unit]; exact hzero.symm)
  have hbit := congrArg (fun b => Bits.index b r) hunit
  simp at hbit

theorem standardGenerators_movedGroup : (movedGroup k images qubitIndex).standardGenerators.take k =
      (movedGroup k images qubitIndex).rowPaulis
        ((movedGroup k images qubitIndex).reducedPhases 4) := by
  have hrank := binaryRank_movedGroup hf hindependent hlift hacts hσ
  have hnot : ∀ c : ZMod 4, c ≠ 0 → iPow c ∉ (movedGroup k images qubitIndex).toSubgroup :=
    fun c hc hmem => hc (scalar_movedGroup hf hlift hacts hσ hmem)
  have hshape := (movedGroup k images qubitIndex).standardShape
  generalize (movedGroup k images qubitIndex).standardGenerators = generators at hshape
  cases hshape with
  | imaginary hone => exact absurd hone (hnot 1 (by decide))
  | reduced _ htwo _ => exact absurd htwo (hnot 2 (by decide))
  | negative _ htwo _ => exact absurd htwo (hnot 2 (by decide))
  | positive _ _ =>
    refine take_of_length_le ?_
    rw [rowPaulis, length_map, length_range, hrank]
  | trivial _ hzero _ =>
    rw [rowPaulis, hzero, ← hrank, hzero]
    rfl

theorem toPhased_standardGenerator {j : ℕ} (hj : j < k) :
    (((movedGroup k images qubitIndex).standardGenerators.take k).getD j
        .neutralElement).toPhased = (imageProduct k images qubitIndex j).remap σ := by
  have hrank := binaryRank_movedGroup hf hindependent hlift hacts hσ
  rw [standardGenerators_movedGroup hf hindependent hlift hacts hσ, rowPaulis, hrank,
    getD_eq_getElem _ _ (by simpa using hj), getElem_map, getElem_range,
    toPhased_asSparsePauli_row,
    ((movedGroup k images qubitIndex).phaseResidue_reducedPhases (by rwa [hrank])).2.1, sub_self,
    iPow_zero, one_mul, standardProduct_movedGroup hacts hσ hj]

theorem independent_standardGenerators {t : Bits} (ht : t.Below k) {c : ZMod 4}
    (hscalar : Bits.orderedProd (fun j => (((movedGroup k images qubitIndex).standardGenerators.take
      k).getD j .neutralElement).toPhased) t = iPow c) : t = 0 := by
  have hvalid := valid_identity.relabel σ.injective
  have hproduct : Bits.orderedProd (imageProduct k images qubitIndex) t = iPow c := by
    refine hvalid.lift_injective ?_
    rw [lift_iPow, ← hscalar, ← hvalid.liftHom_apply, Bits.map_orderedProd]
    refine Bits.orderedProd_congr ht fun j hj => ?_
    rw [toPhased_standardGenerator hf hindependent hlift hacts hσ hj, hvalid.liftHom_apply,
      lift_relabel_identity σ.injective]
  have hpreimage := congrArg hf.liftHom hproduct
  rw [Bits.map_orderedProd, hf.liftHom_iPow, Bits.orderedProd_congr ht fun j hj =>
    (hf.liftHom_apply _).trans (lift_imageProduct hf hlift hj), orderedProd_zProduct] at hpreimage
  exact independent_combine_standardTransform hindependent images qubitIndex t ht
    (congrArg PhasedPauli.zBits hpreimage)

include hplaces

theorem remappedSparse_standardGenerator {j : ℕ} (hj : j < k) :
    (((movedGroup k images qubitIndex).standardGenerators.take k).getD j
        .neutralElement).Below support.length ∧ (remappedSparse support
        (((movedGroup k images qubitIndex).standardGenerators.take k).getD j
          .neutralElement)).toPhased = imageProduct k images qubitIndex j := by
  have hget := toPhased_standardGenerator hf hindependent hlift hacts hσ hj
  have hproduct : (imageProduct k images qubitIndex j).ActsOn support := by
    refine Bits.orderedProd_induction (actsOn_one support) (fun _ _ hp hq => hp.mul hq) ?_
    intro q hq
    exact hacts q
      (((dualRows_standardTransform k images qubitIndex).below_left j hj).lt_of_index hq)
  constructor
  · unfold PauliUnitary.Below
    rw [hget]
    refine hproduct.below_remap fun q hq => ?_
    rw [hσ q hq]
    exact (hplaces q hq).1
  · rw [toPhased_remappedSparse, hget, remap_remap]
    conv_rhs => rw [← remap_id (imageProduct k images qubitIndex j)]
    refine hproduct.remap_congr fun q hq => ?_
    rw [hσ q hq, (hplaces q hq).2]

end Relabeled

end Moved

theorem restrictedSigns_spec {k n : ℕ} {transform restricting signMatrix : AlignedBitMatrix}
    (hbelow : ∀ j, j < k → (transform.row j).Below k) (hrestrictingRows : restricting.rowCount = k)
    (hrestrictingColumns : restricting.columnCount = n)
    (hrestricting : ∀ i, i < k → (restricting.row i).Below n) (hsigns : signMatrix.rowCount = n) :
    ∃ restrictedTransform restricted,
      M4ri.mul (fromRowIter ((List.range k).map transform.row) k) restricting =
        some restrictedTransform ∧ M4ri.mul restrictedTransform signMatrix = some restricted ∧
        (restricted.rowCount = k ∧ restricted.columnCount = signMatrix.columnCount) ∧
          ∀ r : Bits, r.Below signMatrix.columnCount → ∀ j, j < k → Bits.dot (restricted.row j) r =
              Bits.dot (Bits.combine restricting.row (transform.row j)) (signMatrix.mulVec r) := by
  obtain ⟨restrictedTransform, hfirst, ⟨hrows, hcolumns⟩, hentries⟩ := M4ri.mul_eq_combine
    (show (fromRowIter ((List.range k).map transform.row) k).columnCount =
      restricting.rowCount from hrestrictingRows.symm)
  rw [hrestrictingColumns] at hcolumns
  obtain ⟨restricted, hsecond, ⟨hrows', hcolumns'⟩, hentries'⟩ := M4ri.mul_eq_combine
    (hcolumns.trans hsigns.symm)
  rw [rowCount_fromRowIter, length_map, length_range] at hrows hentries
  refine ⟨restrictedTransform, restricted, hfirst, hsecond, ⟨hrows'.trans hrows, hcolumns'⟩,
    fun r hr j hj => ?_⟩
  have hlow : ∀ (m : AlignedBitMatrix) (i : ℕ), m.columnCount = signMatrix.columnCount →
      Bits.dot (m.entries i) r = Bits.dot (m.row i) r := by
    intro m i hm
    rw [entries, hm, Bits.dot_low _ hr]
  have hcombined : Bits.low n (restrictedTransform.row j) =
      Bits.combine restricting.row (transform.row j) := by
    have hentry := hentries j hj
    rw [entries, hcolumns] at hentry
    rw [hentry, columnCount_fromRowIter, row_fromRowIter,
      getD_eq_getElem _ _ (by simpa using hj), getElem_map, getElem_range,
      Bits.low_eq_self (hbelow j hj)]
    refine Bits.combine_congr (hbelow j hj) fun i hi => ?_
    rw [entries, hrestrictingColumns]
    exact Bits.low_eq_self (hrestricting i hi)
  rw [← hlow restricted j hcolumns', hentries' j (by omega), hcolumns, hcombined]
  refine Bits.dot_combine _ (fun i => ?_) _
  rw [hlow signMatrix i rfl, index_mulVec]

/-- The computation, for known results of its steps. -/
theorem standardRestrictionWithSignMatrix_eq_some {C moved : CliffordUnitary}
    {signMatrix completion inverse restrictedTransform restricted : AlignedBitMatrix}
    {support qubitIndex : List ℕ} {k : ℕ} (hk : (C.supportRestrictedZImages support).rowCount = k)
    (hcompletion : (C.supportRestrictedZImages support).completeToFullRankRowBasis =
      some completion) (hinverted : completion.inverted = some inverse)
    (hmoved : C.multiplyWith (fromCssPreimageIndicators completion.transposed inverse) = some moved)
    (hindex : qubitIndexOf C.numQubits support = some qubitIndex)
    (hrank : (movedGroup k moved.imageZ qubitIndex).binaryRank = k)
    (hfirst : M4ri.mul (fromRowIter ((List.range k).map
      (movedGroup k moved.imageZ qubitIndex).standardTransform.row) k)
        (C.supportRestrictedZImages support) = some restrictedTransform)
    (hsecond : M4ri.mul restrictedTransform signMatrix = some restricted) :
    C.standardRestrictionWithSignMatrix signMatrix support =
      some ((movedGroup k moved.imageZ qubitIndex).standardGenerators.take k, restricted) := by
  subst hk
  change (do
    let completion ← (C.supportRestrictedZImages support).completeToFullRankRowBasis
    let inverse ← completion.inverted
    let moved ← C.multiplyWith (fromCssPreimageIndicators completion.transposed inverse)
    let qubitIndex ← qubitIndexOf C.numQubits support
    let group := movedGroup (C.supportRestrictedZImages support).rowCount moved.imageZ qubitIndex
    let transform := fromRowIter
      ((List.range group.binaryRank).map group.standardTransform.row) group.binaryRank
    let restrictedTransform ← M4ri.mul transform (C.supportRestrictedZImages support)
    let restricted ← M4ri.mul restrictedTransform signMatrix
    some (group.standardGenerators.take (C.supportRestrictedZImages support).rowCount,
      restricted)) = _
  rw [hcompletion]
  simp only [Option.bind_eq_bind, Option.bind_some, hinverted, hmoved, hindex]
  rw [hrank, hfirst]
  simp only [Option.bind_some, hsecond]

/-- The restriction of a family of stabilizer groups is exact in every branch.  The standard
generators act in the support and are independent; with the signs that the restricted sign matrix
gives in a branch, they generate exactly the stabilizers of the branch state on the support. -/
theorem standardRestrictionWithSignMatrix_spec {n : ℕ} {C : CliffordUnitary} (hC : C.ValidOn n)
    {signMatrix : AlignedBitMatrix} (hsigns : signMatrix.rowCount = n) {support : List ℕ}
    (hsupport : ∀ q ∈ support, q < n) : ∃ generators restricted,
      C.standardRestrictionWithSignMatrix signMatrix support = some (generators, restricted) ∧
        (restricted.rowCount = generators.length ∧
          restricted.columnCount = signMatrix.columnCount) ∧ (∀ j, j < generators.length →
          (generators.getD j .neutralElement).Below support.length) ∧
        (∀ t : Bits, t.Below generators.length → ∀ c : ZMod 4,
          Bits.orderedProd (fun j => (generators.getD j .neutralElement).toPhased) t = iPow c →
            t = 0) ∧ ∀ r : Bits, r.Below signMatrix.columnCount → (signedGroup generators.length
              (fun j => (PauliGroup.remappedSparse support
                (generators.getD j .neutralElement)).toPhased)
              (fun j => Bits.dot (restricted.row j) r) : Set PhasedPauli) =
            {p | p ∈ C.frame.stabilizers (signMatrix.mulVec r) ∧ p.ActsOn support} := by
  have hf := hC.frame
  obtain ⟨hcolumns, hindependent, hspace⟩ :=
    rowSpace_supportRestrictedZImagesFromSupportComplement hC
      (complement support.mergeSort C.numQubits)
  have hacts (σ : Bits) (p : PhasedPauli) (hp : p ∈ C.frame.stabilizers σ) :=
    actsOn_iff_mem_rowSpace hC hsupport hp
  change (C.supportRestrictedZImages support).columnCount = n at hcolumns
  change Bits.Independent (C.supportRestrictedZImages support).rowCount
    (C.supportRestrictedZImages support).row at hindependent
  have hbelow : ∀ i, i < (C.supportRestrictedZImages support).rowCount →
      ((C.supportRestrictedZImages support).row i).Below n :=
    fun i hi => ((hspace _).mp (Bits.row_mem_rowSpace _ hi)).1
  obtain ⟨completion, inverse, moved, hcompletion, hinverted, hmoved, hlift⟩ :=
    restrictedClifford_spec hC hcolumns hbelow hindependent
  obtain ⟨qubitIndex, hindex, hplaces⟩ := qubitIndexOf_spec hsupport
  obtain ⟨σ, hσ⟩ := exists_perm_of_leftInverse (h := fun e => support.getD e 0)
    fun q hq => (hplaces q hq).2
  set restricting := C.supportRestrictedZImages support with hrestricting
  set k := restricting.rowCount with hk
  have hactsImage : ∀ q, q < k → (moved.imageZ q).toPhased.ActsOn support := by
    intro q hq
    have hmem : (moved.imageZ q).toPhased ∈ C.frame.stabilizers 0 := by
      rw [mem_stabilizers_iff, hlift q hq]
      simp [zProduct]
    refine (hacts 0 _ hmem).mp ?_
    rw [hlift q hq]
    exact Bits.row_mem_rowSpace _ hq
  have hrank := binaryRank_movedGroup hf hindependent hlift hactsImage hσ
  set group := movedGroup k moved.imageZ qubitIndex with hgroup
  have hdual := dualRows_standardTransform k moved.imageZ qubitIndex
  obtain ⟨restrictedTransform, restricted, hfirst, hsecond, hshape, hdot⟩ :=
    restrictedSigns_spec hdual.below_left hk.symm hcolumns hbelow hsigns
  have hlength : (group.standardGenerators.take k).length = k := by
    rw [standardGenerators_movedGroup hf hindependent hlift hactsImage hσ, rowPaulis,
      length_map, length_range, hrank]
  have hgenerator (j : ℕ) (hj : j < k) :=
    remappedSparse_standardGenerator hf hindependent hlift hactsImage hplaces hσ hj
  refine ⟨group.standardGenerators.take k, restricted,
    standardRestrictionWithSignMatrix_eq_some hk.symm hcompletion hinverted hmoved
      (hC.numQubits_eq ▸ hindex) hrank hfirst hsecond, by rw [hlength]; exact hshape,
    fun j hj => (hgenerator j (by omega)).1, fun t ht c hscalar => ?_, fun r hr => ?_⟩
  · rw [hlength] at ht
    exact independent_standardGenerators hf hindependent hlift hactsImage hσ ht hscalar
  · rw [hlength]
    rw [signedGroup_congr (fun j hj => (hgenerator j hj).2) (hdot r hr),
      hf.coe_signedGroup_rows fun j hj => lift_imageProduct hf hlift hj]
    ext p
    refine and_congr_right fun hp => ?_
    rw [hdual.rowSpace_transform, hacts _ p hp]

theorem standardRestrictionWithSignMatrix_spec_identity : ∃ generators restricted,
      (identity 2).standardRestrictionWithSignMatrix (AlignedBitMatrix.identity 2) [1] =
          some (generators, restricted) ∧ ∀ r : Bits, r.Below 2 → (signedGroup generators.length
              (fun j => (PauliGroup.remappedSparse [1]
                (generators.getD j .neutralElement)).toPhased)
              (fun j => Bits.dot (restricted.row j) r) : Set PhasedPauli) =
            {p | p ∈ (identity 2).frame.stabilizers ((AlignedBitMatrix.identity 2).mulVec r) ∧
              p.ActsOn [1]} := by
  obtain ⟨generators, restricted, hrun, _, _, _, hgroup⟩ :=
    standardRestrictionWithSignMatrix_spec (validOn_identity 2)
      (rowCount_identity 2) (show ∀ q ∈ [1], q < 2 by decide)
  refine ⟨generators, restricted, hrun, fun r hr => hgroup r ?_⟩
  rwa [columnCount_identity]

end CliffordUnitary

end QdkEc
