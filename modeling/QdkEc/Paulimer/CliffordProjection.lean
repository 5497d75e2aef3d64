import QdkEc.Paulimer.CliffordModPauli

/-!
# Forgetting the phases of Clifford unitaries

This module relates the runs of `CliffordUnitary` to those of
`CliffordUnitaryModPauli`.  Forgetting phases commutes with every operation that
returns; the only operation that reads phases is a resize to fewer qubits, which
asserts that the removed qubits carry no sign.
-/

namespace QdkEc

open List

namespace AlignedBitMatrix

theorem setRow_row (m : AlignedBitMatrix) (i : ℕ) : m.setRow i (m.row i) = m := by
  have hblocks : (m.setRow i (m.row i)).blocks = m.blocks := by
    cases hrow : m.rows[i]? with
    | none => simp only [setRow, hrow]
    | some r =>
      have hr := m.rows_lt r (mem_of_getElem? hrow)
      simp only [setRow, row, hrow]
      rw [getD_eq_getElem _ _ hr, set_getElem_self]
  simp only [setRow] at hblocks ⊢
  simp only [hblocks]

end AlignedBitMatrix

namespace PauliUnitary

@[simp]
theorem projective_mulAssignRight (p rhs : PauliUnitary) :
    (p.mulAssignRight rhs).projective = p.projective.mulAssignRight rhs.projective :=
  rfl

@[simp]
theorem projective_mulAssignLeft (p lhs : PauliUnitary) :
    (p.mulAssignLeft lhs).projective = p.projective.mulAssignLeft lhs.projective :=
  rfl

end PauliUnitary

namespace CliffordUnitary

@[simp]
theorem numQubits_projective (C : CliffordUnitary) : C.projective.numQubits = C.numQubits :=
  rfl

@[simp]
theorem preimageXView_projective (C : CliffordUnitary) (index : ℕ) :
    C.projective.preimageXView index = (C.preimageXView index).projective :=
  rfl

@[simp]
theorem preimageZView_projective (C : CliffordUnitary) (index : ℕ) :
    C.projective.preimageZView index = (C.preimageZView index).projective :=
  rfl

@[simp]
theorem projective_setPreimageX (C : CliffordUnitary) (index : ℕ) (p : PauliUnitary) :
    (C.setPreimageX index p).projective = C.projective.setPreimageX index p.projective :=
  rfl

@[simp]
theorem projective_setPreimageZ (C : CliffordUnitary) (index : ℕ) (p : PauliUnitary) :
    (C.setPreimageZ index p).projective = C.projective.setPreimageZ index p.projective :=
  rfl

/-- A loop whose steps commute with forgetting phases commutes with it. -/
theorem projective_foldl {α : Type*} {f : CliffordUnitary → α → CliffordUnitary}
    {g : CliffordUnitaryModPauli → α → CliffordUnitaryModPauli}
    (h : ∀ C a, (f C a).projective = g C.projective a) (l : List α) (C : CliffordUnitary) :
    (l.foldl f C).projective = l.foldl g C.projective := by
  induction l generalizing C with
  | nil => rfl
  | cons a l ih => rw [foldl_cons, ih, h, foldl_cons]

theorem projective_foldl_mulAssignRight {v : ℕ → PauliUnitary} {w : ℕ → PauliUnitaryProjective}
    (h : ∀ i, (v i).projective = w i) (l : List ℕ) (target : PauliUnitary) :
    (l.foldl (fun target id => target.mulAssignRight (v id)) target).projective =
      l.foldl (fun target id => target.mulAssignRight (w id)) target.projective := by
  induction l generalizing target with
  | nil => rfl
  | cons i l ih => rw [foldl_cons, ih, PauliUnitary.projective_mulAssignRight, h, foldl_cons]

theorem projective_rewritePreimages (gx gz : ℕ → PauliUnitary → PauliUnitary)
    (gx' gz' : ℕ → PauliUnitaryProjective → PauliUnitaryProjective)
    (hx : ∀ i p, (gx i p).projective = gx' i p.projective)
    (hz : ∀ i p, (gz i p).projective = gz' i p.projective) (C : CliffordUnitary) (qubits : List ℕ) :
    (C.rewritePreimages gx gz qubits).projective =
      C.projective.rewritePreimages gx' gz' qubits := by
  refine projective_foldl (fun C index => ?_) qubits C
  rw [projective_setPreimageZ, hz, ← preimageZView_projective, projective_setPreimageX, hx,
    ← preimageXView_projective]

theorem projective_updatePreimages (g : PauliUnitary → PauliUnitary)
    (g' : PauliUnitaryProjective → PauliUnitaryProjective)
    (h : ∀ p, (g p).projective = g' p.projective) (C : CliffordUnitary) (pauli : PauliUnitary) :
    (C.updatePreimages g pauli).projective = C.projective.updatePreimages g' pauli.projective := by
  have hz : ∀ (l : List ℕ) (C : CliffordUnitary), (C.updatePreimagesZ g l).projective =
      l.foldl (fun C index => C.setPreimageZ index (g' (C.preimageZView index))) C.projective := by
    refine projective_foldl fun C index => ?_
    rw [projective_setPreimageZ, h]
    rfl
  have hx : ∀ (l : List ℕ) (C : CliffordUnitary), (C.updatePreimagesX g l).projective =
      l.foldl (fun C index => C.setPreimageX index (g' (C.preimageXView index))) C.projective := by
    refine projective_foldl fun C index => ?_
    rw [projective_setPreimageX, h]
    rfl
  unfold updatePreimages
  rw [hx, hz]
  rfl

theorem projective_assignPreimages (C : CliffordUnitary) (support : List ℕ)
    (newPreimages : List (PauliUnitary × PauliUnitary)) :
    (C.assignPreimages support newPreimages).projective = C.projective.assignPreimages support
        (newPreimages.map fun entry => (entry.1.projective, entry.2.projective)) := by
  unfold assignPreimages CliffordUnitaryModPauli.assignPreimages
  rw [zip_map_right, foldl_map]
  exact projective_foldl (fun C entry => rfl) _ C

theorem projective_preimage (C : CliffordUnitary) (pauli : PauliUnitary) :
    (C.preimage pauli).projective = C.projective.preimage pauli.projective := by
  have hx := projective_foldl_mulAssignRight (v := C.preimageXView) (fun _ => rfl)
    pauli.xBits.support PauliUnitary.neutralElement
  have hz := projective_foldl_mulAssignRight (v := C.preimageZView) (fun _ => rfl)
    pauli.zBits.support (C.mulAssignRightPreimageXBits PauliUnitary.neutralElement pauli.xBits)
  refine hz.trans ?_
  unfold mulAssignRightPreimageXBits
  rw [hx]
  rfl

theorem projective_preimage_addAssignPhaseExp (C : CliffordUnitary) (pauli : PauliUnitary)
    (value : UInt8) :
    ((C.mulAssignRightPreimage PauliUnitary.neutralElement pauli).addAssignPhaseExp
      value).projective = C.projective.preimage pauli.projective :=
  projective_preimage C pauli

theorem foldl_add_eq_foldl_mulAssignRight (v : ℕ → Bits × Bits) (l : List ℕ)
    (target : Bits × Bits) : (⟨(l.foldl (fun target id => target + v id) target).1,
        (l.foldl (fun target id => target + v id) target).2⟩ : PauliUnitaryProjective) =
      l.foldl (fun target id => target.mulAssignRight ⟨(v id).1, (v id).2⟩)
        ⟨target.1, target.2⟩ := by
  induction l generalizing target with
  | nil => rfl
  | cons i l ih =>
    rw [foldl_cons, ih, foldl_cons]
    rfl

theorem projective_image (C : CliffordUnitary) (pauli : PauliUnitary) :
    (C.image pauli).projective = C.projective.image pauli.projective := by
  have hx := foldl_add_eq_foldl_mulAssignRight C.xImageViewUpToPhase pauli.xBits.support 0
  have hz := foldl_add_eq_foldl_mulAssignRight C.zImageViewUpToPhase pauli.zBits.support
    (pauli.xBits.support.foldl (fun target id => target + C.xImageViewUpToPhase id) 0)
  refine hz.trans ?_
  rw [hx]
  rfl

theorem projective_imageX (C : CliffordUnitary) (q : ℕ) :
    (C.imageX q).projective = C.projective.xImageView q := by
  unfold imageX
  rw [zero_add]
  rfl

theorem projective_imageZ (C : CliffordUnitary) (q : ℕ) :
    (C.imageZ q).projective = C.projective.zImageView q := by
  unfold imageZ
  rw [zero_add]
  rfl

theorem setPreimageX_preimageXView (C : CliffordUnitaryModPauli) (q : ℕ) :
    C.setPreimageX q (C.preimageXView q) = C := by
  simp only [CliffordUnitaryModPauli.setPreimageX, CliffordUnitaryModPauli.preimageXView,
    AlignedBitMatrix.setRow_row]

theorem setPreimageZ_preimageZView (C : CliffordUnitaryModPauli) (q : ℕ) :
    C.setPreimageZ q (C.preimageZView q) = C := by
  simp only [CliffordUnitaryModPauli.setPreimageZ, CliffordUnitaryModPauli.preimageZView,
    AlignedBitMatrix.setRow_row]

theorem projective_leftMulX (C : CliffordUnitary) (q : ℕ) :
    (C.leftMulX q).projective = C.projective :=
  setPreimageZ_preimageZView C.projective q

theorem projective_leftMulZ (C : CliffordUnitary) (q : ℕ) :
    (C.leftMulZ q).projective = C.projective :=
  setPreimageX_preimageXView C.projective q

theorem projective_leftMulY (C : CliffordUnitary) (q : ℕ) :
    (C.leftMulY q).projective = C.projective :=
  (projective_leftMulX (C.leftMulZ q) q).trans (projective_leftMulZ C q)

theorem projective_leftMulRootY (C : CliffordUnitary) (q : ℕ) :
    (C.leftMulRootY q).projective = C.projective.leftMulRootY q := by
  change (C.leftMulZ q).projective.leftMulHadamard q = _
  rw [projective_leftMulZ]
  rfl

theorem projective_leftMulRootYInverse (C : CliffordUnitary) (q : ℕ) :
    (C.leftMulRootYInverse q).projective = C.projective.leftMulRootYInverse q :=
  projective_leftMulZ (C.leftMulHadamard q) q

/-- Every named gate commutes with forgetting phases. -/
theorem projective_leftMul (C : CliffordUnitary) (unitaryOp : UnitaryOp) (support : List ℕ) :
    (C.leftMul unitaryOp support).map projective = C.projective.leftMul unitaryOp support := by
  have hpair : ∀ (q r : ℕ) {D : CliffordUnitary} {E : CliffordUnitaryModPauli}, D.projective = E →
      (if q ≠ r then some D else none).map projective = if q ≠ r then some E else none := by
    rintro q r D _ rfl
    split_ifs <;> rfl
  unfold leftMul
  split
  · rfl
  · exact congrArg some (projective_leftMulX C _)
  · exact congrArg some (projective_leftMulY C _)
  · exact congrArg some (projective_leftMulZ C _)
  · rfl
  · rfl
  · exact congrArg some (projective_leftMulRootY C _)
  · exact congrArg some (projective_leftMulRootYInverse C _)
  · rfl
  · rfl
  · rfl
  · exact hpair _ _ rfl
  · exact hpair _ _ rfl
  · exact hpair _ _ rfl
  · exact hpair _ _ rfl
  · unfold CliffordUnitaryModPauli.leftMul
    split <;> simp_all

theorem projective_leftMulPauli (C : CliffordUnitary) (pauli : PauliUnitary) :
    (C.leftMulPauli pauli).projective = C.projective.leftMulPauli pauli.projective := by
  have hx := projective_foldl (f := leftMulX) (g := CliffordUnitaryModPauli.leftMulX)
    projective_leftMulX pauli.xBits.support C
  have hz := projective_foldl (f := leftMulZ) (g := CliffordUnitaryModPauli.leftMulZ)
    projective_leftMulZ pauli.zBits.support (pauli.xBits.support.foldl leftMulX C)
  refine hz.trans ?_
  rw [hx]
  rfl

theorem projective_leftMulPauliExp (C : CliffordUnitary) (pauli : PauliUnitary) :
    (C.leftMulPauliExp pauli).projective = C.projective.leftMulPauliExp pauli.projective := by
  have hstep : ∀ p : PauliUnitary, (p.mulAssignRight
      ((C.mulAssignRightPreimage PauliUnitary.neutralElement pauli).addAssignPhaseExp
        1)).projective =
          p.projective.mulAssignRight (C.projective.preimage pauli.projective) := by
    intro p
    rw [PauliUnitary.projective_mulAssignRight, projective_preimage_addAssignPhaseExp]
  unfold leftMulPauliExp CliffordUnitaryModPauli.leftMulPauliExp
  rw [numQubits_projective]
  split_ifs
  · exact projective_updatePreimages _
      (fun p => p.mulAssignRight (C.projective.preimage pauli.projective)) hstep C pauli
  · rfl

theorem projective_leftMulControlledPauli (C : CliffordUnitary) (control target : PauliUnitary) :
    (C.leftMulControlledPauli control target).projective =
      C.projective.leftMulControlledPauli control.projective target.projective := by
  have hright : ∀ p : PauliUnitary, (p.mulAssignRight
      (C.mulAssignRightPreimage PauliUnitary.neutralElement target)).projective =
        p.projective.mulAssignRight (C.projective.preimage target.projective) := by
    intro p
    rw [PauliUnitary.projective_mulAssignRight, ← projective_preimage]
    rfl
  have hleft : ∀ p : PauliUnitary, (p.mulAssignLeft
      (C.mulAssignRightPreimage PauliUnitary.neutralElement control)).projective =
        p.projective.mulAssignLeft (C.projective.preimage control.projective) := by
    intro p
    rw [PauliUnitary.projective_mulAssignLeft, ← projective_preimage]
    rfl
  unfold leftMulControlledPauli CliffordUnitaryModPauli.leftMulControlledPauli
  rw [numQubits_projective]
  split_ifs
  · refine (projective_updatePreimages _
      (fun p => p.mulAssignLeft (C.projective.preimage control.projective)) hleft _ target).trans ?_
    rw [projective_updatePreimages _
      (fun p => p.mulAssignRight (C.projective.preimage target.projective)) hright C control]
  · rfl

theorem projective_leftMulPermutation (C : CliffordUnitary) (permutation support : List ℕ) :
    (C.leftMulPermutation permutation support).map projective =
      C.projective.leftMulPermutation permutation support := by
  unfold leftMulPermutation CliffordUnitaryModPauli.leftMulPermutation
  split_ifs
  · rw [Option.map_some, projective_assignPreimages]
    unfold permutedPreimages
    rw [map_map]
    rfl
  · rfl

theorem projective_leftMulClifford (C clifford : CliffordUnitary) (support : List ℕ) :
    (C.leftMulClifford clifford support).map projective =
      C.projective.leftMulClifford clifford.projective support := by
  unfold leftMulClifford CliffordUnitaryModPauli.leftMulClifford
  rw [numQubits_projective]
  split_ifs
  · rw [Option.map_some, projective_assignPreimages]
    unfold composedPreimages
    rw [map_map]
    refine congrArg some (congrArg _ (map_congr_left fun i _ => ?_))
    simp only [Function.comp_apply, projective_preimage]
    rfl
  · rfl

theorem projective_identity (n : ℕ) :
    (identity n).projective = CliffordUnitaryModPauli.identity n :=
  projective_rewritePreimages (fun index p => p.mulAssignLeftX index)
    (fun index p => p.mulAssignRightZ index) (fun index p => p.mulAssignLeftX index)
    (fun index p => p.mulAssignRightZ index) (fun _ _ => rfl) (fun _ _ => rfl) (zero n)
    (List.range (zero n).numQubits)

theorem projective_multiplyWith (left right : CliffordUnitary) :
    (left.multiplyWith right).map projective = left.projective.multiplyWith right.projective := by
  have hloop := projective_rewritePreimages
    (fun q _ => (right.preimage (left.preimageXView q)).assigned)
    (fun q _ => (right.preimage (left.preimageZView q)).assigned)
    (fun q _ => right.projective.preimage (left.projective.preimageXView q))
    (fun q _ => right.projective.preimage (left.projective.preimageZView q))
    (fun q _ => projective_preimage right (left.preimageXView q))
    (fun q _ => projective_preimage right (left.preimageZView q))
    (zero left.numQubits) (List.range left.numQubits)
  unfold multiplyWith CliffordUnitaryModPauli.multiplyWith
  rw [numQubits_projective, numQubits_projective]
  split_ifs
  · exact congrArg some hloop
  · rfl

theorem projective_inverse (C : CliffordUnitary) : C.inverse.projective = C.projective.inverse := by
  have hloop := projective_rewritePreimages
    (fun q _ => (C.imageX q).assigned) (fun q _ => (C.imageZ q).assigned)
    (fun q _ => C.projective.xImageView q) (fun q _ => C.projective.zImageView q)
    (fun q _ => projective_imageX C q) (fun q _ => projective_imageZ C q)
    (identity C.numQubits) (List.range C.numQubits)
  rw [projective_identity] at hloop
  exact hloop

theorem projective_tensor (left right : CliffordUnitary) :
    (left.tensor right).projective = left.projective.tensor right.projective := by
  have hfirst := projective_rewritePreimages
    (fun q p => p.assignWithOffset (left.preimageXView q) 0 left.numQubits)
    (fun q p => p.assignWithOffset (left.preimageZView q) 0 left.numQubits)
    (fun q p => p.assignWithOffset (left.projective.preimageXView q) 0 left.numQubits)
    (fun q p => p.assignWithOffset (left.projective.preimageZView q) 0 left.numQubits)
    (fun q p => rfl) (fun q p => rfl) (zero (left.numQubits + right.numQubits))
    (List.range left.numQubits)
  have hsecond := projective_rewritePreimages
    (fun q p => p.assignWithOffset (right.preimageXView (q - left.numQubits))
      left.numQubits right.numQubits)
    (fun q p => p.assignWithOffset (right.preimageZView (q - left.numQubits))
      left.numQubits right.numQubits)
    (fun q p => p.assignWithOffset (right.projective.preimageXView (q - left.numQubits))
      left.numQubits right.numQubits)
    (fun q p => p.assignWithOffset (right.projective.preimageZView (q - left.numQubits))
      left.numQubits right.numQubits)
    (fun q p => rfl) (fun q p => rfl)
    ((zero (left.numQubits + right.numQubits)).rewritePreimages
      (fun q p => p.assignWithOffset (left.preimageXView q) 0 left.numQubits)
      (fun q p => p.assignWithOffset (left.preimageZView q) 0 left.numQubits)
      (List.range left.numQubits))
    ((List.range right.numQubits).map (left.numQubits + ·))
  rw [hfirst] at hsecond
  exact hsecond

theorem projective_cliffordTensoredWithIdentity (left : CliffordUnitary) (k : ℕ) :
    (left.cliffordTensoredWithIdentity k).projective =
      left.projective.cliffordTensoredWithIdentity k := by
  have hloop := projective_rewritePreimages
    (fun q p => p.assignWithOffset (left.preimageXView q) 0 left.numQubits)
    (fun q p => p.assignWithOffset (left.preimageZView q) 0 left.numQubits)
    (fun q p => p.assignWithOffset (left.projective.preimageXView q) 0 left.numQubits)
    (fun q p => p.assignWithOffset (left.projective.preimageZView q) 0 left.numQubits)
    (fun q p => rfl) (fun q p => rfl) (identity (left.numQubits + k)) (List.range left.numQubits)
  rw [projective_identity] at hloop
  exact hloop

/-- The preimages of the qubits that a resize removes carry no phase. -/
def PhaseFreeFrom (C : CliffordUnitary) (newQubitCount : ℕ) : Prop :=
  ∀ q, newQubitCount ≤ q → q < C.numQubits →
    PauliUnitary.phaseValue (C.preimageXView q).xzPhaseExp = 0 ∧
      PauliUnitary.phaseValue (C.preimageZView q).xzPhaseExp = 0

theorem isPauliX_eq_true_iff {p : PauliUnitary} {q : ℕ} : p.isPauliX q = true ↔
      p.projective.isPauliX q = true ∧ PauliUnitary.phaseValue p.xzPhaseExp = 0 := by
  unfold PauliUnitary.isPauliX
  rw [Bool.and_eq_true, beq_iff_eq]
  rfl

theorem isPauliZ_eq_true_iff {p : PauliUnitary} {q : ℕ} : p.isPauliZ q = true ↔
      p.projective.isPauliZ q = true ∧ PauliUnitary.phaseValue p.xzPhaseExp = 0 := by
  unfold PauliUnitary.isPauliZ
  rw [Bool.and_eq_true, beq_iff_eq]
  rfl

variable {C : CliffordUnitary}

theorem shrinkable_iff {k : ℕ} : ((List.range' k (C.numQubits - k)).all fun q =>
        (C.preimageXView q).isPauliX q && (C.preimageZView q).isPauliZ q) = true ↔
      ((List.range' k (C.numQubits - k)).all fun q =>
        (C.projective.preimageXView q).isPauliX q &&
          (C.projective.preimageZView q).isPauliZ q) = true ∧ C.PhaseFreeFrom k := by
  simp only [all_eq_true, mem_range'_1, Bool.and_eq_true, isPauliX_eq_true_iff,
    isPauliZ_eq_true_iff, PhaseFreeFrom, preimageXView_projective, preimageZView_projective]
  constructor
  · intro h
    refine ⟨fun q hq => ⟨(h q hq).1.1, (h q hq).2.1⟩, fun q hk hq => ?_⟩
    obtain ⟨hx, hz⟩ := h q ⟨hk, by omega⟩
    exact ⟨hx.2, hz.2⟩
  · rintro ⟨hbits, hphase⟩ q hq
    obtain ⟨hx, hz⟩ := hphase q hq.1 (by omega)
    exact ⟨⟨(hbits q hq).1, hx⟩, ⟨(hbits q hq).2, hz⟩⟩

theorem projective_shrinkClifford {k : ℕ} (h : C.PhaseFreeFrom k) :
    (C.shrinkClifford k).map projective = C.projective.shrinkClifford k := by
  have hloop := projective_rewritePreimages
    (fun q _ => (C.preimageXView q).assigned) (fun q _ => (C.preimageZView q).assigned)
    (fun q _ => C.projective.preimageXView q) (fun q _ => C.projective.preimageZView q)
    (fun q _ => rfl) (fun q _ => rfl) (identity k) (List.range k)
  rw [projective_identity] at hloop
  unfold shrinkClifford CliffordUnitaryModPauli.shrinkClifford
  rw [numQubits_projective]
  by_cases hall : ((List.range' k (C.numQubits - k)).all fun q =>
      (C.projective.preimageXView q).isPauliX q && (C.projective.preimageZView q).isPauliZ q) = true
  · rw [if_pos (shrinkable_iff.mpr ⟨hall, h⟩), if_pos hall]
    exact congrArg some hloop
  · rw [if_neg fun hC => hall (shrinkable_iff.mp hC).1, if_neg hall]
    rfl

theorem projective_resize {k : ℕ} (h : C.PhaseFreeFrom k) :
    (C.resize k).map projective = C.projective.resize k := by
  unfold resize CliffordUnitaryModPauli.resize
  rw [numQubits_projective]
  cases compare C.numQubits k with
  | eq => rfl
  | lt => exact congrArg some (projective_cliffordTensoredWithIdentity C _)
  | gt => exact projective_shrinkClifford h

theorem phaseFreeFrom_of_resize {C C' : CliffordUnitary} {k : ℕ} (h : C.resize k = some C') :
    C.PhaseFreeFrom k := by
  rcases Nat.lt_or_ge k C.numQubits with hk | hk
  · rw [resize, Nat.compare_eq_gt.mpr hk] at h
    by_contra hphase
    refine absurd h ?_
    simp only [shrinkClifford]
    rw [if_neg fun hall => hphase (shrinkable_iff.mp hall).2]
    simp
  · intro q hq hlt
    omega

/-- The operations of a Clifford unitary, each on a tableau that may change its size. -/
inductive CliffordStep where
  | mutate (op : CliffordOp)
  | resize (newQubitCount : ℕ)
  | multiplyWith (rhs : CliffordUnitary)
  | multiplyInto (lhs : CliffordUnitary)
  | inverse
  | tensor (rhs : CliffordUnitary)
  | tensorInto (lhs : CliffordUnitary)

namespace CliffordStep

/-- Perform one operation; `none` is a failed assertion. -/
def apply : CliffordStep → CliffordUnitary → Option CliffordUnitary
  | mutate op, C => op.apply C
  | resize newQubitCount, C => C.resize newQubitCount
  | multiplyWith rhs, C => C.multiplyWith rhs
  | multiplyInto lhs, C => lhs.multiplyWith C
  | inverse, C => some C.inverse
  | tensor rhs, C => some (C.tensor rhs)
  | tensorInto lhs, C => some (lhs.tensor C)

/-- Perform one operation on the bits, with operands whose phases are forgotten. -/
def applyModPauli : CliffordStep → CliffordUnitaryModPauli → Option CliffordUnitaryModPauli
  | mutate (.leftMul unitaryOp support), D => D.leftMul unitaryOp support
  | mutate (.leftMulPauli pauli), D => some (D.leftMulPauli pauli.projective)
  | mutate (.leftMulPauliExp pauli), D => some (D.leftMulPauliExp pauli.projective)
  | mutate (.leftMulControlledPauli control target), D =>
    some (D.leftMulControlledPauli control.projective target.projective)
  | mutate (.leftMulPermutation permutation support), D => D.leftMulPermutation permutation support
  | mutate (.leftMulClifford clifford support), D => D.leftMulClifford clifford.projective support
  | resize newQubitCount, D => D.resize newQubitCount
  | multiplyWith rhs, D => D.multiplyWith rhs.projective
  | multiplyInto lhs, D => lhs.projective.multiplyWith D
  | inverse, D => some D.inverse
  | tensor rhs, D => some (D.tensor rhs.projective)
  | tensorInto lhs, D => some (lhs.projective.tensor D)

/-- The operation does not shrink a tableau by qubits that carry a phase. -/
def PhaseFree : CliffordStep → CliffordUnitary → Prop
  | resize newQubitCount, C => C.PhaseFreeFrom newQubitCount
  | _, _ => True

theorem projective_apply {step : CliffordStep} (h : step.PhaseFree C) :
    (step.apply C).map projective = step.applyModPauli C.projective := by
  cases step with
  | mutate op =>
    cases op with
    | leftMul unitaryOp support => exact projective_leftMul C unitaryOp support
    | leftMulPauli pauli => exact congrArg some (projective_leftMulPauli C pauli)
    | leftMulPauliExp pauli => exact congrArg some (projective_leftMulPauliExp C pauli)
    | leftMulControlledPauli control target =>
      exact congrArg some (projective_leftMulControlledPauli C control target)
    | leftMulPermutation permutation support =>
      exact projective_leftMulPermutation C permutation support
    | leftMulClifford clifford support => exact projective_leftMulClifford C clifford support
  | resize newQubitCount => exact projective_resize h
  | multiplyWith rhs => exact projective_multiplyWith C rhs
  | multiplyInto lhs => exact projective_multiplyWith lhs C
  | inverse => exact congrArg some (projective_inverse C)
  | tensor rhs => exact congrArg some (projective_tensor C rhs)
  | tensorInto lhs => exact congrArg some (projective_tensor lhs C)

theorem phaseFree_of_apply {step : CliffordStep} {C C' : CliffordUnitary}
    (h : step.apply C = some C') : step.PhaseFree C := by
  cases step with
  | resize newQubitCount => exact phaseFreeFrom_of_resize h
  | mutate _ | multiplyWith _ | multiplyInto _ | inverse | tensor _ | tensorInto _ => trivial

/-- Perform a sequence of operations; `none` is a failed assertion. -/
def run : List CliffordStep → CliffordUnitary → Option CliffordUnitary
  | [], C => some C
  | step :: steps, C => (step.apply C).bind (run steps)

/-- Perform a sequence of operations on the bits. -/
def runModPauli :
    List CliffordStep → CliffordUnitaryModPauli → Option CliffordUnitaryModPauli
  | [], D => some D
  | step :: steps, D => (step.applyModPauli D).bind (runModPauli steps)

/-- No operation of a run shrinks the tableau by qubits that carry a phase. -/
def PhaseFreeRun : List CliffordStep → CliffordUnitary → Prop
  | [], _ => True
  | step :: steps, C => step.PhaseFree C ∧ ∀ C', step.apply C = some C' → PhaseFreeRun steps C'

theorem phaseFreeRun_of_run {steps : List CliffordStep} {C C' : CliffordUnitary}
    (h : run steps C = some C') : PhaseFreeRun steps C := by
  induction steps generalizing C with
  | nil => trivial
  | cons step steps ih =>
    obtain ⟨D, hD, hrun⟩ := Option.bind_eq_some_iff.mp h
    refine ⟨phaseFree_of_apply hD, fun E hE => ?_⟩
    obtain rfl : D = E := Option.some.inj (hD.symm.trans hE)
    exact ih hrun

theorem runModPauli_projective {steps : List CliffordStep} (h : PhaseFreeRun steps C) :
    runModPauli steps C.projective = (run steps C).map projective := by
  induction steps generalizing C with
  | nil => rfl
  | cons step steps ih =>
    obtain ⟨hstep, hrest⟩ := h
    have happly := projective_apply hstep
    unfold runModPauli run
    rw [← happly]
    cases hC : step.apply C with
    | none => rfl
    | some C' => exact ih (hrest C' hC)

/-- Running on the bits is running on the tableau and then forgetting phases.
The runs agree as long as no resize removes qubits that carry a phase, and so
whenever the run on the tableau returns; the unsigned images and preimages agree. -/
theorem runModPauli_projective_spec (steps : List CliffordStep) (C : CliffordUnitary) :
    (PhaseFreeRun steps C → runModPauli steps C.projective = (run steps C).map projective) ∧
      ∀ C', run steps C = some C' → runModPauli steps C.projective = some C'.projective ∧
          ∀ pauli : PauliUnitary,
            C'.projective.preimage pauli.projective = (C'.preimage pauli).projective ∧
              C'.projective.image pauli.projective = (C'.image pauli).projective := by
  refine ⟨runModPauli_projective, fun C' hrun => ⟨?_, fun pauli => ?_⟩⟩
  · rw [runModPauli_projective (phaseFreeRun_of_run hrun), hrun]
    rfl
  · exact ⟨(projective_preimage C' pauli).symm, (projective_image C' pauli).symm⟩

/-- A run that grows, multiplies, shrinks again and inverts. -/
theorem runModPauli_projective_spec_identity :
    runModPauli [.resize 3, .mutate (.leftMul .Hadamard [0]), .mutate (.leftMul .X [0]),
        .multiplyInto (identity 3), .resize 2, .inverse] (identity 1).projective =
      (run [.resize 3, .mutate (.leftMul .Hadamard [0]), .mutate (.leftMul .X [0]),
        .multiplyInto (identity 3), .resize 2, .inverse] (identity 1)).map projective := by
  have hrun : (run [.resize 3, .mutate (.leftMul .Hadamard [0]), .mutate (.leftMul .X [0]),
      .multiplyInto (identity 3), .resize 2, .inverse] (identity 1)).isSome = true := by
    decide +kernel
  obtain ⟨C', hC'⟩ := Option.isSome_iff_exists.mp hrun
  exact (runModPauli_projective_spec _ _).1 (phaseFreeRun_of_run hC')

/-- A sign on a removed qubit fails an assertion of the tableau that the bits do not have. -/
theorem not_runModPauli_projective :
    ¬ ∀ steps C, runModPauli steps C.projective = (run steps C).map projective := by
  intro h
  have hsign := congrArg Option.isSome (h [.mutate (.leftMul .Z [1]), .resize 1] (identity 2))
  revert hsign
  decide +kernel

end CliffordStep

end CliffordUnitary

end QdkEc
