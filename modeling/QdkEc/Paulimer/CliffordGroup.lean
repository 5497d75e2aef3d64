import QdkEc.Paulimer.CliffordOp

/-!
# The group of Clifford unitaries

This module models products, inverses, tensor products and equality of Clifford
unitaries and proves the group laws, signs included.
-/

namespace QdkEc

open PhasedPauli PauliUnitary GeneratorFrame List

namespace PauliUnitary

/-- Copy a range of bits into another bit set at an offset. -/
def assignBitsWithOffset (bits other : Bits) (startBit numBits : ℕ) : Bits :=
  (List.range numBits).foldl
    (fun bits bitIndex =>
      AlignedBitMatrix.assignIndex bits (bitIndex + startBit) (other.index bitIndex))
    bits

/-- Copy the phase of a Pauli and a range of its bits at an offset. -/
def assignWithOffset (p rhs : PauliUnitary) (startQubitIndex numQubits : ℕ) : PauliUnitary where
  xBits := assignBitsWithOffset p.xBits rhs.xBits startQubitIndex numQubits
  zBits := assignBitsWithOffset p.zBits rhs.zBits startQubitIndex numQubits
  xzPhaseExp := phaseValue rhs.xzPhaseExp

theorem index_assignBitsWithOffset (bits other : Bits) (startBit numBits j : ℕ) :
    (assignBitsWithOffset bits other startBit numBits).index j =
      if startBit ≤ j ∧ j < startBit + numBits then other.index (j - startBit)
      else bits.index j := by
  unfold assignBitsWithOffset
  induction numBits with
  | zero =>
    rw [if_neg (by omega)]
    rfl
  | succ k ih =>
    rw [range_succ, foldl_append, foldl_cons, foldl_nil, AlignedBitMatrix.index_assignIndex, ih]
    by_cases hj : k + startBit = j
    · subst hj
      rw [if_pos rfl, if_pos (by omega), Nat.add_sub_cancel]
    · have hcond : (startBit ≤ j ∧ j < startBit + k) ↔
          (startBit ≤ j ∧ j < startBit + (k + 1)) := by
        omega
      rw [if_neg hj]
      simp only [hcond]

theorem assignBitsWithOffset_zero {other : Bits} {numBits : ℕ} (h : other.Below numBits)
    (startBit : ℕ) :
    assignBitsWithOffset 0 other startBit numBits = other.remap (· + startBit) := by
  apply Bits.ext_index
  intro j
  rw [index_assignBitsWithOffset, Bool.eq_iff_iff, Bits.index_remap]
  constructor
  · intro hj
    split_ifs at hj with hrange
    · exact ⟨j - startBit, hj, by omega⟩
    · simp at hj
  · rintro ⟨i, hi, rfl⟩
    have hlt := h.lt_of_index hi
    rw [if_pos (by omega), Nat.add_sub_cancel]
    exact hi

theorem toPhased_assignWithOffset {rhs : PauliUnitary} {numQubits : ℕ} (h : rhs.Below numQubits)
    (start : ℕ) : (neutralElement.assignWithOffset rhs start numQubits).toPhased =
      rhs.toPhased.remap (· + start) := by
  ext1
  · exact phaseResidue_phaseValue rhs.xzPhaseExp
  · exact assignBitsWithOffset_zero h.1 start
  · exact assignBitsWithOffset_zero h.2 start

end PauliUnitary

namespace CliffordUnitary

/-- Two matrices have the same shape and the same entries. -/
def bitsEq (m m' : AlignedBitMatrix) : Bool :=
  m.rowCount == m'.rowCount && m.columnCount == m'.columnCount &&
    (List.range m.rowCount).all fun irow =>
      (List.range m.columnCount).all fun icol => m.get irow icol == m'.get irow icol

/-- Two tableaux are equal, their phases counted modulo four. -/
def equalsTo (C D : CliffordUnitary) : Bool :=
  ((C.preimagePhaseExponents.zip D.preimagePhaseExponents).all fun entry =>
    PauliUnitary.rawEq entry.1 entry.2) && bitsEq C.bits D.bits

variable {C D : CliffordUnitary}

theorem row_eq_of_views (hn : C.numQubits = D.numQubits)
    (hx : ∀ i, i < C.numQubits → (C.preimageXView i).toPhased = (D.preimageXView i).toPhased)
    (hz : ∀ i, i < C.numQubits → (C.preimageZView i).toPhased = (D.preimageZView i).toPhased)
    {k : ℕ} (hk : k < 4 * C.numQubits) : C.bits.row k = D.bits.row k := by
  have hblock : ∀ i, i < C.numQubits →
      C.bits.row i = D.bits.row i ∧
        C.bits.row (i + C.numQubits) = D.bits.row (i + C.numQubits) ∧
          C.bits.row (i + 2 * C.numQubits) = D.bits.row (i + 2 * C.numQubits) ∧
            C.bits.row (i + 3 * C.numQubits) = D.bits.row (i + 3 * C.numQubits) := by
    intro i hi
    obtain ⟨_, hxx, hxz⟩ := toPhased_injective_iff.mp (hx i hi)
    obtain ⟨_, hzx, hzz⟩ := toPhased_injective_iff.mp (hz i hi)
    simp only [preimageXView, preimageZView, xOfPx, zOfPx, xOfPz, zOfPz, xOfPreimageXOffset,
      zOfPreimageXOffset, xOfPreimageZOffset, zOfPreimageZOffset, add_zero, ← hn] at hxx hxz hzx hzz
    exact ⟨hxx, hxz, hzx, hzz⟩
  by_cases h1 : k < C.numQubits
  · exact (hblock k h1).1
  · by_cases h2 : k < 2 * C.numQubits
    · obtain ⟨i, rfl⟩ : ∃ i, k = i + C.numQubits := ⟨k - C.numQubits, by omega⟩
      exact (hblock i (by omega)).2.1
    · by_cases h3 : k < 3 * C.numQubits
      · obtain ⟨i, rfl⟩ : ∃ i, k = i + 2 * C.numQubits := ⟨k - 2 * C.numQubits, by omega⟩
        exact (hblock i (by omega)).2.2.1
      · obtain ⟨i, rfl⟩ : ∃ i, k = i + 3 * C.numQubits := ⟨k - 3 * C.numQubits, by omega⟩
        exact (hblock i (by omega)).2.2.2

theorem phase_eq_of_views
    (hx : ∀ i, i < C.numQubits → (C.preimageXView i).toPhased = (D.preimageXView i).toPhased)
    (hz : ∀ i, i < C.numQubits → (C.preimageZView i).toPhased = (D.preimageZView i).toPhased)
    {k : ℕ} (hk : k < 2 * C.numQubits) :
    rawEq (C.preimagePhaseExponents.getD k 0) (D.preimagePhaseExponents.getD k 0) = true := by
  rw [rawEq_iff]
  rcases Nat.even_or_odd' k with ⟨i, rfl | rfl⟩
  · exact (toPhased_injective_iff.mp (hx i (by omega))).1
  · exact (toPhased_injective_iff.mp (hz i (by omega))).1

theorem equalsTo_of_frame_eq (hn : C.numQubits = D.numQubits) (hframe : C.frame = D.frame) :
    C.equalsTo D = true := by
  have hx : ∀ i, i < C.numQubits →
      (C.preimageXView i).toPhased = (D.preimageXView i).toPhased := by
    intro i hi
    rw [← frame_x hi, hframe, frame_x (by omega)]
  have hz : ∀ i, i < C.numQubits →
      (C.preimageZView i).toPhased = (D.preimageZView i).toPhased := by
    intro i hi
    rw [← frame_z hi, hframe, frame_z (by omega)]
  have hrowsC : C.bits.rowCount = 4 * C.numQubits := C.rowCount_eq
  have hrowsD : D.bits.rowCount = 4 * D.numQubits := D.rowCount_eq
  have hcolumns : C.bits.columnCount = D.bits.columnCount := hn
  have hlenD : D.preimagePhaseExponents.length = 2 * D.numQubits := D.length_eq
  unfold equalsTo bitsEq
  simp only [Bool.and_eq_true, all_eq_true, mem_range, beq_iff_eq]
  refine ⟨?_, ⟨by omega, hcolumns⟩, ?_⟩
  · intro entry hentry
    obtain ⟨k, hk, rfl⟩ := mem_iff_getElem.mp hentry
    rw [length_zip] at hk
    have hphase := phase_eq_of_views hx hz (k := k) (by omega)
    rw [getD_eq_getElem _ _ (by omega), getD_eq_getElem _ _ (by omega)] at hphase
    rw [getElem_zip]
    exact hphase
  · intro irow hirow icol _
    unfold AlignedBitMatrix.get
    rw [row_eq_of_views hn hx hz (by omega)]

theorem frame_eq_of_lift_eq {f g : GeneratorFrame} (h : ∀ p, f.lift p = g.lift p) : f = g := by
  refine GeneratorFrame.ext (funext fun i => ?_) (funext fun i => ?_)
  · simpa using h (X i)
  · simpa using h (Z i)

/-- The product of two Clifford unitaries; `none` is a failed assertion. -/
def multiplyWith (left right : CliffordUnitary) : Option CliffordUnitary :=
  if left.numQubits = right.numQubits then
    some ((zero left.numQubits).rewritePreimages
      (fun qubitIndex _ => (right.preimage (left.preimageXView qubitIndex)).assigned)
      (fun qubitIndex _ => (right.preimage (left.preimageZView qubitIndex)).assigned)
      (List.range left.numQubits))
  else none

/-- The inverse of a Clifford unitary, whose preimages are the images with their signs. -/
def inverse (C : CliffordUnitary) : CliffordUnitary :=
  (identity C.numQubits).rewritePreimages
    (fun qubitIndex _ => (C.imageX qubitIndex).assigned)
    (fun qubitIndex _ => (C.imageZ qubitIndex).assigned)
    (List.range C.numQubits)

/-- The tensor product of two Clifford unitaries. -/
def tensor (left right : CliffordUnitary) : CliffordUnitary :=
  let lhsNumQubits := left.numQubits
  let rhsNumQubits := right.numQubits
  let result := (zero (lhsNumQubits + rhsNumQubits)).rewritePreimages
    (fun qubitId p => p.assignWithOffset (left.preimageXView qubitId) 0 lhsNumQubits)
    (fun qubitId p => p.assignWithOffset (left.preimageZView qubitId) 0 lhsNumQubits)
    (List.range lhsNumQubits)
  result.rewritePreimages
    (fun qubitId p =>
      p.assignWithOffset (right.preimageXView (qubitId - lhsNumQubits)) lhsNumQubits rhsNumQubits)
    (fun qubitId p =>
      p.assignWithOffset (right.preimageZView (qubitId - lhsNumQubits)) lhsNumQubits rhsNumQubits)
    ((List.range rhsNumQubits).map (lhsNumQubits + ·))

theorem frame_rewritePreimages_range {C : CliffordUnitary} (gx gz : ℕ → PauliUnitary → PauliUnitary)
    {f : GeneratorFrame} (hx : ∀ i, i < C.numQubits → (gx i (C.preimageXView i)).toPhased = f.x i)
    (hz : ∀ i, i < C.numQubits → (gz i (C.preimageZView i)).toPhased = f.z i)
    (hf : f.FixesFrom C.numQubits) :
    (C.rewritePreimages gx gz (List.range C.numQubits)).frame = f := by
  have hviews := fun i (hi : i < C.numQubits) =>
    views_rewritePreimages (C := C) gx gz nodup_range
      (fun q hq => mem_range.mp hq) hi
  have hn := numQubits_rewritePreimages C gx gz (List.range C.numQubits)
  refine GeneratorFrame.ext (funext fun i => ?_) (funext fun i => ?_)
  · by_cases hi : i < C.numQubits
    · rw [frame_x (by omega), (hviews i hi).1, if_pos (mem_range.mpr hi), hx i hi]
    · rw [frame_x_of_le (by omega), (hf i (by omega)).1]
  · by_cases hi : i < C.numQubits
    · rw [frame_z (by omega), (hviews i hi).2, if_pos (mem_range.mpr hi), hz i hi]
    · rw [frame_z_of_le (by omega), (hf i (by omega)).2]

variable {A B : CliffordUnitary}

theorem multiplyWith_eq_some {n : ℕ} (hA : A.ValidOn n) (hB : B.ValidOn n) :
    ∃ AB, A.multiplyWith B = some AB ∧ AB.numQubits = n ∧ AB.frame = B.frame.comp A.frame := by
  have hAn := hA.numQubits_eq
  have hBn := hB.numQubits_eq
  have hfix : (B.frame.comp A.frame).FixesFrom (zero A.numQubits).numQubits := by
    refine GeneratorFrame.FixesFrom.comp ?_ ?_
    · rw [numQubits_zero, hAn, ← hBn]
      exact B.fixesFrom_frame
    · exact A.fixesFrom_frame
  have hpad := hA.paddingClear
  rw [PaddingClear, hAn] at hpad
  refine ⟨_, if_pos (hAn.trans hBn.symm), ?_, ?_⟩
  · rw [numQubits_rewritePreimages, numQubits_zero, hAn]
  · refine frame_rewritePreimages_range (C := zero A.numQubits) _ _ ?_ ?_ hfix
    · intro i hi
      rw [numQubits_zero] at hi
      rw [toPhased_assigned,
        toPhased_preimage (by rw [hBn]; exact (hpad i (by omega)).1), ← frame_x hi]
      rfl
    · intro i hi
      rw [numQubits_zero] at hi
      rw [toPhased_assigned,
        toPhased_preimage (by rw [hBn]; exact (hpad i (by omega)).2), ← frame_z hi]
      rfl

@[simp]
theorem numQubits_inverse (C : CliffordUnitary) : C.inverse.numQubits = C.numQubits := by
  unfold inverse
  rw [numQubits_rewritePreimages, numQubits_identity]

theorem frame_inverse (C : CliffordUnitary) : C.inverse.frame = C.imageFrame := by
  have hn := numQubits_identity C.numQubits
  have hframe := frame_rewritePreimages_range (C := identity C.numQubits) (f := C.imageFrame)
    (fun qubitIndex _ => (C.imageX qubitIndex).assigned)
    (fun qubitIndex _ => (C.imageZ qubitIndex).assigned)
    (fun i hi => by simp [imageFrame, show i < C.numQubits by omega])
    (fun i hi => by simp [imageFrame, show i < C.numQubits by omega])
    (by rw [hn]; exact C.fixesFrom_imageFrame)
  rw [hn] at hframe
  exact hframe

@[simp]
theorem numQubits_tensor (A B : CliffordUnitary) :
    (A.tensor B).numQubits = A.numQubits + B.numQubits := by
  unfold tensor
  rw [numQubits_rewritePreimages, numQubits_rewritePreimages, numQubits_zero]

theorem frame_tensor (hA : A.frame.Valid) (hB : B.frame.Valid) :
    (A.tensor B).frame = A.frame.tensor A.numQubits B.frame := by
  have hpadA := paddingClear_of_frame hA
  have hpadB := paddingClear_of_frame hB
  have hremap : ∀ p : PhasedPauli, p.remap (· + 0) = p := by
    intro p
    rw [remap_add_eq_lift]
    exact lift_identity p
  have hfirst := fun i (hi : i < A.numQubits + B.numQubits) =>
    views_rewritePreimages (C := zero (A.numQubits + B.numQubits))
      (fun qubitId p => p.assignWithOffset (A.preimageXView qubitId) 0 A.numQubits)
      (fun qubitId p => p.assignWithOffset (A.preimageZView qubitId) 0 A.numQubits)
      (nodup_range : (List.range A.numQubits).Nodup)
      (fun q hq => by have := mem_range.mp hq; rw [numQubits_zero]; omega) (j := i) hi
  have hsecond := fun i (hi : i < A.numQubits + B.numQubits) =>
    views_rewritePreimages
      (C := (zero (A.numQubits + B.numQubits)).rewritePreimages
        (fun qubitId p => p.assignWithOffset (A.preimageXView qubitId) 0 A.numQubits)
        (fun qubitId p => p.assignWithOffset (A.preimageZView qubitId) 0 A.numQubits)
        (List.range A.numQubits))
      (fun qubitId p => p.assignWithOffset (B.preimageXView (qubitId - A.numQubits))
        A.numQubits B.numQubits)
      (fun qubitId p => p.assignWithOffset (B.preimageZView (qubitId - A.numQubits))
        A.numQubits B.numQubits)
      (nodup_range.map (add_right_injective A.numQubits) :
        ((List.range B.numQubits).map (A.numQubits + ·)).Nodup)
      (fun q hq => by
        obtain ⟨k, hk, rfl⟩ := mem_map.mp hq
        have := mem_range.mp hk
        rw [numQubits_rewritePreimages, numQubits_zero]
        omega)
      (j := i) (by rw [numQubits_rewritePreimages, numQubits_zero]; exact hi)
  have hmem : ∀ i, i < A.numQubits + B.numQubits →
      (i ∈ (List.range B.numQubits).map (A.numQubits + ·) ↔ ¬ i < A.numQubits) := by
    intro i hi
    rw [mem_map]
    constructor
    · rintro ⟨k, _, rfl⟩
      omega
    · intro hA
      exact ⟨i - A.numQubits, mem_range.mpr (by omega), by omega⟩
  have hn := numQubits_tensor A B
  refine GeneratorFrame.ext (funext fun i => ?_) (funext fun i => ?_)
  · by_cases hi : i < A.numQubits + B.numQubits
    · rw [frame_x (by omega)]
      refine (congrArg toPhased (hsecond i hi).1).trans ?_
      rw [(hfirst i hi).1]
      simp only [hmem i hi, mem_range, preimageXView_zero, GeneratorFrame.tensor]
      by_cases hiA : i < A.numQubits
      · rw [if_neg (by simpa using hiA), if_pos hiA, if_pos hiA,
          toPhased_assignWithOffset (hpadA i hiA).1, hremap, frame_x hiA]
      · rw [if_pos hiA, if_neg hiA, if_neg hiA,
          toPhased_assignWithOffset (hpadB _ (by omega)).1, frame_x (by omega)]
    · rw [frame_x_of_le (by omega), GeneratorFrame.tensor]
      simp only [show ¬ i < A.numQubits by omega, if_false]
      rw [frame_x_of_le (by omega), (remap_add_generators (by omega)).1]
  · by_cases hi : i < A.numQubits + B.numQubits
    · rw [frame_z (by omega)]
      refine (congrArg toPhased (hsecond i hi).2).trans ?_
      rw [(hfirst i hi).2]
      simp only [hmem i hi, mem_range, preimageZView_zero, GeneratorFrame.tensor]
      by_cases hiA : i < A.numQubits
      · rw [if_neg (by simpa using hiA), if_pos hiA, if_pos hiA,
          toPhased_assignWithOffset (hpadA i hiA).2, hremap, frame_z hiA]
      · rw [if_pos hiA, if_neg hiA, if_neg hiA,
          toPhased_assignWithOffset (hpadB _ (by omega)).2, frame_z (by omega)]
    · rw [frame_z_of_le (by omega), GeneratorFrame.tensor]
      simp only [show ¬ i < A.numQubits by omega, if_false]
      rw [frame_z_of_le (by omega), (remap_add_generators (by omega)).2]

section Laws

variable {n m : ℕ}

theorem multiplyWith_spec (hA : A.ValidOn n) (hB : B.ValidOn n) :
    ∃ AB, A.multiplyWith B = some AB ∧ AB.ValidOn n ∧
      ∀ p, AB.frame.lift p = B.frame.lift (A.frame.lift p) := by
  obtain ⟨AB, hmul, hn, hframe⟩ := multiplyWith_eq_some hA hB
  refine ⟨AB, hmul, ?_, ?_⟩
  · rw [validOn_iff_frame, hframe]
    exact ⟨hn, hB.frame.comp hA.frame⟩
  · intro p
    rw [hframe, hB.frame.lift_comp hA.frame]

theorem equalsTo_of_lift_eq (hA : A.ValidOn n) (hB : B.ValidOn n)
    (h : ∀ p, A.frame.lift p = B.frame.lift p) : A.equalsTo B = true :=
  equalsTo_of_frame_eq (hA.numQubits_eq.trans hB.numQubits_eq.symm) (frame_eq_of_lift_eq h)

theorem lift_frame_identity (n : ℕ) (p : PhasedPauli) : (identity n).frame.lift p = p := by
  rw [frame_identity, lift_identity]

theorem validOn_inverse {A : CliffordUnitary} (hA : A.ValidOn n) : A.inverse.ValidOn n := by
  rw [validOn_iff_frame, numQubits_inverse, frame_inverse]
  exact ⟨hA.numQubits_eq, valid_imageFrame hA.frame⟩

theorem lift_frame_lift_inverse {A : CliffordUnitary} (hA : A.ValidOn n) (p : PhasedPauli) :
    A.frame.lift (A.inverse.frame.lift p) = p := by
  rw [frame_inverse, lift_frame_lift_imageFrame hA.frame]

theorem lift_inverse_lift_frame {A : CliffordUnitary} (hA : A.ValidOn n) (p : PhasedPauli) :
    A.inverse.frame.lift (A.frame.lift p) = p := by
  rw [frame_inverse, lift_imageFrame_lift_frame hA.frame]

theorem multiplyWith_assoc {A B C : CliffordUnitary} (hA : A.ValidOn n) (hB : B.ValidOn n)
    (hC : C.ValidOn n) :
    ∃ AB BC left right, A.multiplyWith B = some AB ∧ B.multiplyWith C = some BC ∧
      AB.multiplyWith C = some left ∧ A.multiplyWith BC = some right ∧
        left.equalsTo right = true := by
  obtain ⟨AB, hAB, hABvalid, hABlift⟩ := multiplyWith_spec hA hB
  obtain ⟨BC, hBC, hBCvalid, hBClift⟩ := multiplyWith_spec hB hC
  obtain ⟨left, hleft, hleftValid, hleftLift⟩ := multiplyWith_spec hABvalid hC
  obtain ⟨right, hright, hrightValid, hrightLift⟩ := multiplyWith_spec hA hBCvalid
  refine ⟨AB, BC, left, right, hAB, hBC, hleft, hright, ?_⟩
  apply equalsTo_of_lift_eq hleftValid hrightValid
  intro p
  rw [hleftLift, hABlift, hrightLift, hBClift]

theorem multiplyWith_identity {A : CliffordUnitary} (hA : A.ValidOn n) :
    ∃ left right, (identity n).multiplyWith A = some left ∧ A.multiplyWith (identity n) =
      some right ∧
      left.equalsTo A = true ∧ right.equalsTo A = true := by
  obtain ⟨left, hleft, hleftValid, hleftLift⟩ := multiplyWith_spec (validOn_identity n) hA
  obtain ⟨right, hright, hrightValid, hrightLift⟩ := multiplyWith_spec hA (validOn_identity n)
  refine ⟨left, right, hleft, hright, ?_, ?_⟩
  · apply equalsTo_of_lift_eq hleftValid hA
    intro p
    rw [hleftLift, lift_frame_identity]
  · apply equalsTo_of_lift_eq hrightValid hA
    intro p
    rw [hrightLift, lift_frame_identity]

theorem image_multiplyWith (hA : A.ValidOn n) (hB : B.ValidOn n) :
    ∃ AB, A.multiplyWith B = some AB ∧ AB.ValidOn n ∧
      ∀ p : PauliUnitary, p.Below n → (AB.image p).equalsTo (A.image (B.image p)) = true := by
  obtain ⟨AB, hAB, hvalid, hlift⟩ := multiplyWith_spec hA hB
  refine ⟨AB, hAB, hvalid, ?_⟩
  intro p hp
  have hpAB : p.Below AB.numQubits := by rwa [hvalid.numQubits_eq]
  have hpB : p.Below B.numQubits := by rwa [hB.numQubits_eq]
  have himage : (B.image p).Below A.numQubits := by
    rw [hA.numQubits_eq, ← hB.numQubits_eq]
    exact below_image hB.frame hpB
  rw [equalsTo_iff]
  apply hvalid.frame.lift_injective
  rw [lift_image hvalid.frame hpAB, hlift, lift_image hA.frame himage, lift_image hB.frame hpB]

theorem multiplyWith_inverse {A : CliffordUnitary} (hA : A.ValidOn n) :
    ∃ right left, A.multiplyWith A.inverse = some right ∧ A.inverse.multiplyWith A = some left ∧
      right.equalsTo (identity n) = true ∧ left.equalsTo (identity n) = true := by
  obtain ⟨right, hright, hrightValid, hrightLift⟩ := multiplyWith_spec hA (validOn_inverse hA)
  obtain ⟨left, hleft, hleftValid, hleftLift⟩ := multiplyWith_spec (validOn_inverse hA) hA
  refine ⟨right, left, hright, hleft, ?_, ?_⟩
  · apply equalsTo_of_lift_eq hrightValid (validOn_identity n)
    intro p
    rw [hrightLift, lift_inverse_lift_frame hA, lift_frame_identity]
  · apply equalsTo_of_lift_eq hleftValid (validOn_identity n)
    intro p
    rw [hleftLift, lift_frame_lift_inverse hA, lift_frame_identity]

theorem inverse_multiplyWith (hA : A.ValidOn n) (hB : B.ValidOn n) :
    ∃ AB inverses, A.multiplyWith B = some AB ∧ B.inverse.multiplyWith A.inverse = some inverses ∧
      AB.inverse.equalsTo inverses = true := by
  obtain ⟨AB, hAB, hvalid, hlift⟩ := multiplyWith_spec hA hB
  obtain ⟨inverses, hinv, hinvValid, hinvLift⟩ :=
    multiplyWith_spec (validOn_inverse hB) (validOn_inverse hA)
  refine ⟨AB, inverses, hAB, hinv, ?_⟩
  apply equalsTo_of_lift_eq (validOn_inverse hvalid) hinvValid
  intro p
  apply hvalid.frame.lift_injective
  rw [lift_frame_lift_inverse hvalid, hlift, hinvLift, lift_frame_lift_inverse hA,
    lift_frame_lift_inverse hB]

theorem validOn_tensor {A D : CliffordUnitary} (hA : A.ValidOn n) (hD : D.ValidOn m) :
    (A.tensor D).ValidOn (n + m) := by
  rw [validOn_iff_frame, numQubits_tensor, hA.numQubits_eq, hD.numQubits_eq,
    frame_tensor hA.frame hD.frame]
  exact ⟨rfl, hA.frame.tensor A.fixesFrom_frame hD.frame⟩

theorem multiplyWith_tensor {A B D E : CliffordUnitary} (hA : A.ValidOn n) (hB : B.ValidOn n)
    (hD : D.ValidOn m) (hE : E.ValidOn m) :
    ∃ AB DE product, A.multiplyWith B = some AB ∧ D.multiplyWith E = some DE ∧
      (A.tensor D).multiplyWith (B.tensor E) = some product ∧
        product.equalsTo (AB.tensor DE) = true := by
  obtain ⟨AB, hAB, hABvalid, hABlift⟩ := multiplyWith_spec hA hB
  obtain ⟨DE, hDE, hDEvalid, hDElift⟩ := multiplyWith_spec hD hE
  obtain ⟨product, hproduct, hvalid, hlift⟩ :=
    multiplyWith_spec (validOn_tensor hA hD) (validOn_tensor hB hE)
  refine ⟨AB, DE, product, hAB, hDE, hproduct, ?_⟩
  have hABn := hABvalid.numQubits_eq.trans hA.numQubits_eq.symm
  have hBn := hB.numQubits_eq.trans hA.numQubits_eq.symm
  have hfixA : A.frame.FixesFrom A.numQubits := A.fixesFrom_frame
  have hfixB : B.frame.FixesFrom A.numQubits := by
    rw [← hBn]
    exact B.fixesFrom_frame
  have hfixAB : AB.frame.FixesFrom A.numQubits := by
    rw [← hABn]
    exact AB.fixesFrom_frame
  apply equalsTo_of_lift_eq hvalid (validOn_tensor hABvalid hDEvalid)
  have htensorAD := hA.frame.tensor hfixA hD.frame
  have htensorBE := hB.frame.tensor hfixB hE.frame
  have htensor := hABvalid.frame.tensor hfixAB hDEvalid.frame
  have hblocks : ∀ p q : PhasedPauli, p.Below A.numQubits →
      product.frame.lift (p * q.remap (· + A.numQubits)) =
        (AB.tensor DE).frame.lift (p * q.remap (· + A.numQubits)) := by
    intro p q hp
    have hp' : (A.frame.lift p).Below A.numQubits := (hA.frame.below_lift_iff hfixA).mpr hp
    rw [hlift, frame_tensor hA.frame hD.frame, frame_tensor hB.frame hE.frame,
      frame_tensor hABvalid.frame hDEvalid.frame, hBn, hABn, htensorAD.lift_mul,
      lift_tensor_of_below hp,
      lift_tensor_remap hA.frame hfixA hD.frame, htensorBE.lift_mul,
      lift_tensor_of_below hp',
      lift_tensor_remap hB.frame hfixB hE.frame, htensor.lift_mul,
      lift_tensor_of_below hp,
      lift_tensor_remap hABvalid.frame hfixAB hDEvalid.frame, hABlift, hDElift]
  have hright := (validOn_tensor hABvalid hDEvalid).frame
  exact eq_of_eq_on_blocks (φ := hvalid.frame.liftHom) (ψ := hright.liftHom)
    (lift_iPow _) (lift_iPow _) hblocks

theorem validOn_multiplyWith {A B AB : CliffordUnitary} (hA : A.ValidOn n) (hB : B.ValidOn n)
    (h : A.multiplyWith B = some AB) : AB.ValidOn n := by
  obtain ⟨AB', hAB, hvalid, _⟩ := multiplyWith_spec hA hB
  rw [hAB] at h
  cases h
  exact hvalid

theorem image_tensor {A D : CliffordUnitary} (hA : A.ValidOn n) (hD : D.ValidOn m)
    {p q : PauliUnitary} (hp : p.Below n) (hq : q.Below m) : ((A.tensor D).image
        (p.mulAssignRight (neutralElement.assignWithOffset q n m))).equalsTo
      ((A.image p).mulAssignRight (neutralElement.assignWithOffset (D.image q) n m)) = true := by
  have hvalid := validOn_tensor hA hD
  have hAf := hA.frame
  have hDf := hD.frame
  obtain ⟨rfl, _, _⟩ := hA
  obtain ⟨rfl, _, _⟩ := hD
  have hAp := below_image hAf hp
  have hDq := below_image hDf hq
  have hpq : (p.mulAssignRight
      (neutralElement.assignWithOffset q A.numQubits D.numQubits)).Below
        (A.tensor D).numQubits := by
    unfold PauliUnitary.Below
    rw [toPhased_mulAssignRight, toPhased_assignWithOffset hq, numQubits_tensor]
    exact (hp.mono (Nat.le_add_right _ _)).mul (hq.remap_add A.numQubits)
  rw [equalsTo_iff]
  apply hvalid.frame.lift_injective
  rw [lift_image hvalid.frame hpq, toPhased_mulAssignRight,
    toPhased_mulAssignRight, toPhased_assignWithOffset hq,
    toPhased_assignWithOffset hDq, frame_tensor hAf hDf,
    (hAf.tensor A.fixesFrom_frame hDf).lift_mul,
    lift_tensor_of_below hAp,
    lift_tensor_remap hAf A.fixesFrom_frame hDf,
    lift_image hAf hp, lift_image hDf hq]

/-- Valid Clifford unitaries form a group.  Products are associative with the identity as
neutral element, act by composition and have two-sided inverses, signs included; tensor products
act and multiply blockwise; and every result is valid. -/
theorem group_laws {A B C D E : CliffordUnitary} (hA : A.ValidOn n) (hB : B.ValidOn n)
    (hC : C.ValidOn n) (hD : D.ValidOn m) (hE : E.ValidOn m) :
    (∃ AB BC left right, A.multiplyWith B = some AB ∧ B.multiplyWith C = some BC ∧
        AB.multiplyWith C = some left ∧ A.multiplyWith BC = some right ∧
          left.equalsTo right = true) ∧ (∃ left right, (identity n).multiplyWith A = some left ∧
        A.multiplyWith (identity n) = some right ∧
          left.equalsTo A = true ∧ right.equalsTo A = true) ∧ (∃ AB, A.multiplyWith B = some AB ∧
        ∀ p : PauliUnitary, p.Below n → (AB.image p).equalsTo (A.image (B.image p)) = true) ∧
      (∃ right left, A.multiplyWith A.inverse = some right ∧ A.inverse.multiplyWith A = some left ∧
          right.equalsTo (identity n) = true ∧ left.equalsTo (identity n) = true) ∧
      (∃ AB inverses, A.multiplyWith B = some AB ∧
        B.inverse.multiplyWith A.inverse = some inverses ∧ AB.inverse.equalsTo inverses = true) ∧
      (∀ p q : PauliUnitary, p.Below n → q.Below m → ((A.tensor D).image
            (p.mulAssignRight (PauliUnitary.neutralElement.assignWithOffset q n m))).equalsTo
          ((A.image p).mulAssignRight
            (PauliUnitary.neutralElement.assignWithOffset (D.image q) n m)) = true) ∧
      (∃ AB DE product, A.multiplyWith B = some AB ∧ D.multiplyWith E = some DE ∧
        (A.tensor D).multiplyWith (B.tensor E) = some product ∧
          product.equalsTo (AB.tensor DE) = true) ∧
      ((identity n).ValidOn n ∧ A.inverse.ValidOn n ∧ (A.tensor D).ValidOn (n + m) ∧
        ∀ AB, A.multiplyWith B = some AB → AB.ValidOn n) := by
  obtain ⟨AB, hAB, _, himage⟩ := image_multiplyWith hA hB
  exact ⟨multiplyWith_assoc hA hB hC, multiplyWith_identity hA, ⟨AB, hAB, himage⟩,
    multiplyWith_inverse hA, inverse_multiplyWith hA hB,
    fun p q hp hq => image_tensor hA hD hp hq, multiplyWith_tensor hA hB hD hE,
    validOn_identity n, validOn_inverse hA, validOn_tensor hA hD,
    fun AB hAB => validOn_multiplyWith hA hB hAB⟩

/-- The laws at a Hadamard and an identity. -/
theorem group_laws_hadamard : ((identity 1).leftMulHadamard 0).ValidOn 1 ∧ ∃ right left,
        ((identity 1).leftMulHadamard 0).multiplyWith ((identity 1).leftMulHadamard 0).inverse =
            some right ∧
          ((identity 1).leftMulHadamard 0).inverse.multiplyWith ((identity 1).leftMulHadamard 0) =
            some left ∧ right.equalsTo (identity 1) = true ∧ left.equalsTo (identity 1) = true := by
  have hvalid : ((identity 1).leftMulHadamard 0).ValidOn 1 := by decide
  exact ⟨hvalid,
    (group_laws hvalid hvalid hvalid (validOn_identity 2) (validOn_identity 2)).2.2.2.1⟩

end Laws

end CliffordUnitary

end QdkEc
