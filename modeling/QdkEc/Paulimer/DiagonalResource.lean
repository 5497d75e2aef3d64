import QdkEc.Paulimer.CliffordBlocks
import QdkEc.Paulimer.CliffordProjection

/-!
# Unitaries from diagonal resource states

This module models `unitary_from_diagonal_resource_state`.  The stabilizers of
the encoded state are reduced to the graph of a symmetric matrix, a diagonal
tableau is made of that matrix, and a loop flips its signs.  The loop compares
the reduced stabilizers with the original ones, so it finds the signs of those
encoders only for which the comparison happens to be conclusive.
-/

namespace QdkEc

open PhasedPauli Bits List PauliUnitary

namespace CliffordUnitary

open AlignedBitMatrix CliffordUnitaryModPauli

/-- A diagonal tableau with the block of the reduced stabilizers. -/
def blocksFromDiagonalResourceState (encoder : CliffordUnitary) (axis : XOrZ) :
    Option CliffordUnitary :=
  let someBlocks := match axis with
    | .X => encoder.projective.isXDiagonalResourceEncoder
    | .Z => encoder.projective.isZDiagonalResourceEncoder
  someBlocks.map fun blocks =>
    let symmetricBlock := (splitBlocks encoder.numQubits blocks).2
    match axis with
    | .X => (identity encoder.numQubits).assignBlock .X .Z symmetricBlock
    | .Z => (identity encoder.numQubits).assignBlock .Z .X symmetricBlock

/-- A Pauli, times `i` unless it is Hermitian. -/
def hermitian (p : PauliUnitary) : PauliUnitary :=
  if !p.isOrderTwo then p.addAssignPhaseExp 1 else p

/-- Flip the sign of one image across the axis where it seems to differ from the encoder. -/
def matchSign (encoder : CliffordUnitary) (axis : XOrZ) (res : CliffordUnitary) (qubitIndex : ℕ) :
    CliffordUnitary :=
  let imZ := (encoder.imageZ qubitIndex).mulAssignLeft (res.imageOf axis.other qubitIndex)
  if PauliUnitary.phaseValue imZ.xzPhaseExp != 0 then
    res.leftMulPauli (res.imageOf axis qubitIndex)
  else res

/-- The unitary that makes the encoded state from the product state across the axis. -/
def unitaryFromDiagonalResourceState (encoder : CliffordUnitary) (axis : XOrZ) :
    Option CliffordUnitary :=
  (encoder.blocksFromDiagonalResourceState axis).map fun res =>
    let res := res.rewritePreimages (fun _ p => hermitian p) (fun _ p => hermitian p)
      (List.range encoder.numQubits)
    (List.range encoder.numQubits).foldl (encoder.matchSign axis) res

variable {r : PhasedPauli}

section Group

variable {E : CliffordUnitary} {n : ℕ} (hE : E.ValidOn n)

include hE

theorem mem_imageGroup_Z_iff : r ∈ E.imageGroup .Z n ↔ r ∈ E.frame.stabilizers 0 ∧ Below n r := by
  have hfix := E.fixesFrom_frame
  rw [hE.numQubits_eq] at hfix
  have hsigned := hE.frame.coe_signedGroup hfix (g := fun q => (E.imageZ q).toPhased)
    (fun i hi => toPhased_imageZ hE.frame (by rw [hE.numQubits_eq]; exact hi)) 0
  have hgroup : signedGroup n (fun q => (E.imageZ q).toPhased) (0 : Bits).index =
      E.imageGroup .Z n := by
    unfold signedGroup imageGroup
    simp only [index_zero, twist_false, iPow_zero, one_mul]
    rfl
  rw [← SetLike.mem_coe, ← hgroup, hsigned]
  rfl

theorem anti_of_mem_imageGroup_Z {p q : PhasedPauli} (hp : p ∈ E.imageGroup .Z n)
    (hq : q ∈ E.imageGroup .Z n) : anti p q = false := by
  have hgroup := hE.frame.isStabilizerGroup E.fixesFrom_frame 0
  exact hgroup.commutes p ((mem_imageGroup_Z_iff hE).mp hp).1 q ((mem_imageGroup_Z_iff hE).mp hq).1

theorem eq_zero_of_iPow_mem_imageGroup_Z {k : ZMod 4} (hk : iPow k ∈ E.imageGroup .Z n) :
    k = 0 := by
  have hgroup := hE.frame.isStabilizerGroup E.fixesFrom_frame 0
  exact hgroup.scalar_eq_zero k ((mem_imageGroup_Z_iff hE).mp hk).1

theorem orderTwo_of_mem_imageGroup_Z {p : PhasedPauli} (hp : p ∈ E.imageGroup .Z n) :
    OrderTwo p := by
  obtain ⟨hx, hphase⟩ := GeneratorFrame.mem_stabilizers_iff.mp ((mem_imageGroup_Z_iff hE).mp hp).1
  refine hE.frame.orderTwo_of_lift ?_
  rw [orderTwo_iff_phase, hphase, hx]
  simp

end Group

section Rows

variable {E : CliffordUnitary} {n : ℕ} (hE : E.ValidOn n) (axis : XOrZ)

/-- The block column of the images of `Z`: the bits across the axis over the bits along it. -/
def stabilizerChain (E : CliffordUnitary) (axis : XOrZ) : List Bits :=
  E.projective.block axis.other .Z ++ E.projective.block axis .Z

include hE

theorem length_stabilizerChain : (E.stabilizerChain axis).length = 2 * n := by
  rw [stabilizerChain, length_append, length_block, length_block, numQubits_projective,
    hE.numQubits_eq, two_mul]

theorem getD_stabilizerChain {q : ℕ} (hq : q < n) :
    (E.stabilizerChain axis).getD q 0 = (E.frame.lift (axis.pauli q)).xBits ∧
      (E.stabilizerChain axis).getD (n + q) 0 = (E.frame.lift (axis.other.pauli q)).xBits := by
  have hlength : (E.projective.block axis.other .Z).length = n := by
    rw [length_block, numQubits_projective, hE.numQubits_eq]
  have hq' : q < E.numQubits := by
    rw [hE.numQubits_eq]
    exact hq
  have hother : axis.other.other = axis := by
    cases axis <;> rfl
  refine ⟨?_, ?_⟩
  · rw [stabilizerChain, getD_append _ _ _ _ (by omega), getD_block_Z hq']
  · have hblock := getD_block_Z hq' axis.other
    rw [hother] at hblock
    rw [stabilizerChain, getD_append_right _ _ _ _ (by omega), hlength,
      Nat.add_sub_cancel_left, hblock]

omit hE in
theorem index_combine_chainRows {t : Bits} (ht : t.Below n) (j : ℕ) :
    (Bits.combine (chainRows n (E.stabilizerChain axis)) t).index j =
      Bits.dot t ((E.stabilizerChain axis).getD j 0) := by
  have hcongr : Bits.combine (chainRows n (E.stabilizerChain axis)) t =
      Bits.combine (fromRowIter (E.stabilizerChain axis) n).column t :=
    combine_congr ht fun i hi => row_transposed (by rwa [columnCount_fromRowIter])
  rw [hcongr]
  refine index_combine _ (fun i => ?_) t
  rw [index_column, AlignedBitMatrix.get, row_fromRowIter]

theorem append_bits_eq_combine (hr : Below n r) (hx : (E.frame.lift r).xBits = 0) :
    append n (axis.other.bits r) (axis.bits r) =
      Bits.combine (chainRows n (E.stabilizerChain axis)) (E.frame.lift r).zBits := by
  have hfix := E.fixesFrom_frame
  rw [hE.numQubits_eq] at hfix
  have ht : (E.frame.lift r).zBits.Below n := ((hE.frame.below_lift_iff hfix).mpr hr).2
  obtain ⟨hacross, halong⟩ := axis.below_iff.mp hr
  have hpair : ∀ p : PhasedPauli,
      anti r p = Bits.dot (E.frame.lift r).zBits (E.frame.lift p).xBits := by
    intro p
    rw [← hE.frame.anti_lift, anti, hx, dot_zero_left, Bool.false_xor]
  refine ext_index fun j => ?_
  rw [index_append hacross, index_combine_chainRows axis ht]
  rcases Nat.lt_or_ge j n with hj | hj
  · rw [if_pos hj, (getD_stabilizerChain hE axis hj).1, axis.index_other_bits, hpair]
  · obtain ⟨i, rfl⟩ := Nat.exists_eq_add_of_le hj
    rw [if_neg (by omega), Nat.add_sub_cancel_left]
    rcases Nat.lt_or_ge i n with hi | hi
    · rw [(getD_stabilizerChain hE axis hi).2, axis.index_bits, hpair]
    · rw [halong.index_eq_false hi, getD_eq_default _ _ (by
        rw [length_stabilizerChain hE]; omega), dot_zero_right]

theorem append_bits_mem_rowSpace_iff (hr : Below n r) : append n (axis.other.bits r) (axis.bits r) ∈
        rowSpace n (chainRows n (E.stabilizerChain axis)) ↔ (E.frame.lift r).xBits = 0 := by
  have hfix := E.fixesFrom_frame
  rw [hE.numQubits_eq] at hfix
  constructor
  · rintro ⟨t, ht, hcombine⟩
    obtain ⟨s, hs⟩ := hE.frame.lift_surjective hfix (zProduct t)
    have hsBelow : Below n s := by
      rw [← hE.frame.below_lift_iff hfix, hs]
      exact ⟨below_zero n, ht⟩
    have hsame := append_bits_eq_combine hE axis hsBelow (by rw [hs]; rfl)
    rw [hs, show (zProduct t).zBits = t from rfl, hcombine] at hsame
    obtain ⟨hacross, halong⟩ := append_injective (axis.below_iff.mp hsBelow).1
      (axis.below_iff.mp hr).1 hsame
    have hratio : r = iPow (r.phase - s.phase) * s := by
      rw [← axis.operator_bits r, ← hacross, ← halong]
      cases axis <;> ext1 <;> simp [XOrZ.operator, XOrZ.bits, XOrZ.other]
    rw [hratio, hE.frame.lift_iPow_mul, hs]
    simp [zProduct]
  · intro hx
    have ht : (E.frame.lift r).zBits.Below n := ((hE.frame.below_lift_iff hfix).mpr hr).2
    exact ⟨_, ht, (append_bits_eq_combine hE axis hr hx).symm⟩

end Rows

/-- The group stabilizes the state that some diagonal unitary makes of the product state across the
axis. -/
def IsDiagonalResource (axis : XOrZ) (n : ℕ) (S : Subgroup PhasedPauli) : Prop :=
  ∃ D : GeneratorFrame, D.Valid ∧ D.FixesFrom n ∧ (∀ q, D.lift (axis.pauli q) = axis.pauli q) ∧
    Subgroup.closure {r | ∃ q < n, r = D.lift (axis.other.pauli q)} = S

/-- The reduced form of the block column of an encoder. -/
def diagonalResourceForm (E : CliffordUnitary) (axis : XOrZ) : Option AlignedBitMatrix :=
  isReducedSymmetric E.numQubits (E.stabilizerChain axis)

section Resource

variable {E : CliffordUnitary} {n : ℕ} (hE : E.ValidOn n) (axis : XOrZ)

include hE

theorem exists_phase_mem_imageGroup (hr : Below n r) (hx : (E.frame.lift r).xBits = 0) :
    iPow (-(E.frame.lift r).phase) * r ∈ E.imageGroup .Z n := by
  rw [mem_imageGroup_Z_iff hE]
  refine ⟨?_, (below_iPow n _).mul hr⟩
  rw [GeneratorFrame.mem_stabilizers_iff, hE.frame.lift_iPow_mul]
  simp [hx]

theorem exists_isGraph {S : ℕ → Bits} (hS : ∀ i, i < n → (S i).Below n)
    (hmem : ∀ i, i < n → append n (unit i) (S i) ∈
      rowSpace n (chainRows n (E.stabilizerChain axis))) :
    ∃ g, IsGraph axis n (E.imageGroup .Z n) g ∧ ∀ q < n, axis.bits (g q) = S q := by
  have hoperator : ∀ q, axis.other.bits (axis.operator 0 (unit q) (S q)) = unit q ∧
      axis.bits (axis.operator 0 (unit q) (S q)) = S q :=
    fun q => ⟨(axis.bits_operator _ _ _).2, (axis.bits_operator _ _ _).1⟩
  have hx : ∀ q < n, Below n (axis.operator 0 (unit q) (S q)) ∧
      (E.frame.lift (axis.operator 0 (unit q) (S q))).xBits = 0 := by
    intro q hq
    have hbelow : Below n (axis.operator 0 (unit q) (S q)) := by
      rw [axis.below_iff, (hoperator q).1, (hoperator q).2]
      exact ⟨below_unit.mpr hq, hS q hq⟩
    refine ⟨hbelow, (append_bits_mem_rowSpace_iff hE axis hbelow).mp ?_⟩
    rw [(hoperator q).1, (hoperator q).2]
    exact hmem q hq
  refine ⟨fun q => iPow (-(E.frame.lift (axis.operator 0 (unit q) (S q))).phase) *
    axis.operator 0 (unit q) (S q), ?_, fun q _ => ?_⟩
  · refine ⟨fun p hp q hq => anti_of_mem_imageGroup_Z hE hp hq,
      fun k hk => eq_zero_of_iPow_mem_imageGroup_Z hE hk,
      fun p hp => ((mem_imageGroup_Z_iff hE).mp hp).2,
      fun q hq => exists_phase_mem_imageGroup hE (hx q hq).1 (hx q hq).2, fun q _ => ?_⟩
    rw [XOrZ.bits_mul, XOrZ.bits_iPow, zero_add, (hoperator q).1]
  · rw [XOrZ.bits_mul, XOrZ.bits_iPow, zero_add, (hoperator q).2]

theorem isDiagonalResource_iff : IsDiagonalResource axis n (E.imageGroup .Z n) ↔
      ∃ m, E.diagonalResourceForm axis = some m := by
  have hlength := length_stabilizerChain hE axis
  unfold diagonalResourceForm
  rw [hE.numQubits_eq]
  constructor
  · rintro ⟨D, hD, hfix, haxis, hclosure⟩
    have hacross : ∀ q, axis.other.bits (D.lift (axis.other.pauli q)) = unit q := by
      intro q
      refine ext_index fun j => ?_
      rw [axis.index_other_bits, ← haxis j, hD.anti_lift, axis.anti_other_pauli, index_unit]
    have hmem : ∀ q < n, D.lift (axis.other.pauli q) ∈ E.imageGroup .Z n := by
      intro q hq
      rw [← hclosure]
      exact Subgroup.subset_closure ⟨q, hq, rfl⟩
    have hbelow : ∀ q < n, Below n (D.lift (axis.other.pauli q)) :=
      fun q hq => ((mem_imageGroup_Z_iff hE).mp (hmem q hq)).2
    refine isReducedSymmetric_of_graph hlength
      (S := fun q => axis.bits (D.lift (axis.other.pauli q))) ?_ ?_
    · intro i _ j _
      have hcomm := hD.anti_lift (axis.other.pauli i) (axis.other.pauli j)
      rw [XOrZ.anti_pauli] at hcomm
      rw [axis.anti_of_units (hacross i) (hacross j)] at hcomm
      simpa using hcomm
    · intro i hi
      have hrow := append_bits_mem_rowSpace_iff hE axis (hbelow i hi)
      rw [hacross] at hrow
      refine hrow.mpr ?_
      exact (GeneratorFrame.mem_stabilizers_iff.mp ((mem_imageGroup_Z_iff hE).mp (hmem i hi)).1).1
  · rintro ⟨m, hm⟩
    obtain ⟨S, hS, -, hrows, -⟩ := isReducedSymmetric_spec hlength hm
    obtain ⟨g, hgraph, -⟩ := exists_isGraph hE axis hS hrows
    refine ⟨diagonalFrame axis n g, ?_, fixesFrom_diagonalFrame axis g,
      lift_diagonalFrame_pauli axis g, ?_⟩
    · refine valid_diagonalFrame axis (fun q hq => ?_) hgraph.across
        (fun q hq => hgraph.below _ (hgraph.mem q hq))
        fun i hi j hj => hgraph.commutes _ (hgraph.mem i hi) _ (hgraph.mem j hj)
      exact orderTwo_of_mem_imageGroup_Z hE (hgraph.mem q hq)
    · rw [← hgraph.closure_eq]
      congr 1
      refine Set.ext fun r => exists_congr fun q => and_congr_right fun hq => ?_
      rw [lift_diagonalFrame_other_pauli, if_pos hq]

end Resource

/-- The phase of the image across the axis when the matrix has a bit on the diagonal. -/
def quarter (b : Bool) : ZMod 4 :=
  if b then 1 else 0

theorem quarter_add_self (b : Bool) : quarter b + quarter b = twist b := by
  cases b <;> rfl

/-- The preimage of the Pauli across the axis under the diagonal tableau of a matrix. -/
def diagonalPreimage (axis : XOrZ) (S : ℕ → Bits) (q : ℕ) : PhasedPauli :=
  axis.operator (quarter ((S q).index q)) (Bits.unit q) (S q)

/-- The image of the Pauli across the axis under the diagonal tableau of a matrix. -/
def diagonalImage (axis : XOrZ) (S : ℕ → Bits) (q : ℕ) : PhasedPauli :=
  axis.operator (-quarter ((S q).index q)) (Bits.unit q) (S q)

theorem orderTwo_diagonal (axis : XOrZ) (S : ℕ → Bits) (q : ℕ) :
    OrderTwo (diagonalPreimage axis S q) ∧ OrderTwo (diagonalImage axis S q) := by
  unfold diagonalPreimage diagonalImage
  rw [orderTwo_iff_phase, orderTwo_iff_phase, axis.phase_operator, axis.phase_operator, ← neg_add,
    quarter_add_self]
  cases axis <;> cases h : (S q).index q <;> simp [XOrZ.operator, h] <;> decide

/-- A square matrix that is symmetric and has no bits beyond its size. -/
structure SymmetricRows (n : ℕ) (S : ℕ → Bits) : Prop where
  below : ∀ i, i < n → (S i).Below n
  symm : ∀ i, i < n → ∀ j, j < n → (S i).index j = (S j).index i

theorem SymmetricRows.valid {n : ℕ} {S : ℕ → Bits} (h : SymmetricRows n S) (axis : XOrZ) :
    (diagonalFrame axis n (diagonalPreimage axis S)).Valid := by
  have hbits : ∀ q, axis.other.bits (diagonalPreimage axis S q) = unit q ∧
      axis.bits (diagonalPreimage axis S q) = S q :=
    fun q => ⟨(axis.bits_operator _ _ _).2, (axis.bits_operator _ _ _).1⟩
  refine valid_diagonalFrame axis (fun q _ => (orderTwo_diagonal axis S q).1)
    (fun q _ => (hbits q).1) (fun q hq => ?_) fun i hi j hj => ?_
  · rw [axis.below_iff, (hbits q).1, (hbits q).2]
    exact ⟨below_unit.mpr hq, h.below q hq⟩
  · rw [axis.anti_of_units (hbits i).1 (hbits j).1, (hbits i).2, (hbits j).2, h.symm i hi j hj,
      Bool.xor_self]

theorem toPhased_hermitian_x (q : ℕ) (s : Bits) :
    (hermitian { PauliUnitary.x q with zBits := s }).toPhased =
      ⟨quarter (s.index q), unit q, s⟩ := by
  have hparity : Bits.dot (unit q) s = s.index q := dot_unit_left q s
  cases h : s.index q <;>
    simp [hermitian, isOrderTwo, yParity, PauliUnitary.x, hparity, h,
      addAssignPhaseExp, toPhased, quarter, phaseResidue]

theorem toPhased_hermitian_z (q : ℕ) (s : Bits) :
    (hermitian { PauliUnitary.z q with xBits := s }).toPhased =
      ⟨quarter (s.index q), s, unit q⟩ := by
  have hparity : Bits.dot s (unit q) = s.index q := dot_unit_right q s
  cases h : s.index q <;>
    simp [hermitian, isOrderTwo, yParity, PauliUnitary.z, hparity, h,
      addAssignPhaseExp, toPhased, quarter, phaseResidue]

theorem hermitian_of_orderTwo {p : PauliUnitary} (h : p.toPhased.OrderTwo) : hermitian p = p := by
  simp [hermitian, isOrderTwo_iff.mpr h]

/-- The tableau of a matrix, with Hermitian preimages. -/
def diagonalTableau (axis : XOrZ) (n : ℕ) (rows : List Bits) : CliffordUnitary :=
  ((identity n).assignBlock axis axis.other rows).rewritePreimages (fun _ p => hermitian p)
    (fun _ p => hermitian p) (List.range n)

section Tableau

variable (axis : XOrZ) {n : ℕ} {rows : List Bits} (hrows : rows.length = n)

theorem numQubits_diagonalTableau : (diagonalTableau axis n rows).numQubits = n := by
  simp [diagonalTableau]

include hrows

theorem frame_diagonalTableau : (diagonalTableau axis n rows).frame =
      diagonalFrame axis n (diagonalPreimage axis fun q => rows.getD q 0) := by
  have hn : (diagonalTableau axis n rows).numQubits = n := numQubits_diagonalTableau axis
  have hrows' : rows.length = (identity n).numQubits := by rw [hrows, numQubits_identity]
  have hviews := fun j (hj : j < n) =>
    views_rewritePreimages (C := (identity n).assignBlock axis axis.other rows)
      (fun _ p => hermitian p) (fun _ p => hermitian p) (nodup_range : (List.range n).Nodup)
      (fun q hq => by simpa using hq) (j := j) (by simpa using hj)
  have hlow : ∀ j, j < n → (diagonalTableau axis n rows).frame.x j =
        (diagonalFrame axis n (diagonalPreimage axis fun q => rows.getD q 0)).x j ∧
      (diagonalTableau axis n rows).frame.z j =
        (diagonalFrame axis n (diagonalPreimage axis fun q => rows.getD q 0)).z j := by
    intro j hj
    obtain ⟨hx, hz⟩ := hviews j hj
    rw [if_pos (mem_range.mpr hj)] at hx hz
    obtain ⟨hidx, hidz⟩ := views_identity hj
    rw [frame_x (by omega), frame_z (by omega), diagonalTableau, hx, hz]
    cases axis with
    | X =>
      obtain ⟨hbx, hbz⟩ := views_assignBlock_X_Z hrows' (j := j) (by simpa using hj)
      change (hermitian (((identity n).assignBlock .X .Z rows).preimageXView j)).toPhased = _ ∧
        (hermitian (((identity n).assignBlock .X .Z rows).preimageZView j)).toPhased = _
      have htwo : (PauliUnitary.x j).toPhased.OrderTwo := orderTwo_X j
      rw [hbx, hbz, hidx, hidz, hermitian_of_orderTwo htwo, toPhased_hermitian_z]
      simp [diagonalFrame, hj, diagonalPreimage, XOrZ.operator]
    | Z =>
      obtain ⟨hbx, hbz⟩ := views_assignBlock_Z_X hrows' (j := j) (by simpa using hj)
      change (hermitian (((identity n).assignBlock .Z .X rows).preimageXView j)).toPhased = _ ∧
        (hermitian (((identity n).assignBlock .Z .X rows).preimageZView j)).toPhased = _
      have htwo : (PauliUnitary.z j).toPhased.OrderTwo := orderTwo_Z j
      rw [hbx, hbz, hidx, hidz, hermitian_of_orderTwo htwo, toPhased_hermitian_x]
      simp [diagonalFrame, hj, diagonalPreimage, XOrZ.operator]
  refine GeneratorFrame.ext (funext fun j => ?_) (funext fun j => ?_)
  · rcases Nat.lt_or_ge j n with hj | hj
    · exact (hlow j hj).1
    · rw [frame_x_of_le (by omega), (fixesFrom_diagonalFrame axis _ j hj).1]
  · rcases Nat.lt_or_ge j n with hj | hj
    · exact (hlow j hj).2
    · rw [frame_z_of_le (by omega), (fixesFrom_diagonalFrame axis _ j hj).2]

end Tableau

/-- The tableau of a matrix with signs on the images across the axis. -/
structure SignedDiagonal (axis : XOrZ) (n : ℕ) (S : ℕ → Bits) (sign : ℕ → Bool)
    (C : CliffordUnitary) :
    Prop where
  valid : C.ValidOn n
  along : ∀ q < n, (C.imageOf axis q).toPhased = axis.pauli q
  across : ∀ q < n, (C.imageOf axis.other q).toPhased =
    iPow (twist (sign q)) * diagonalImage axis S q

variable {sign : ℕ → Bool}

section Signs

variable {axis : XOrZ} {n : ℕ} {S : ℕ → Bits}

theorem signedDiagonal_tableau {rows : List Bits} (hrows : rows.length = n)
    (h : SymmetricRows n fun q => rows.getD q 0) :
    SignedDiagonal axis n (fun q => rows.getD q 0) (fun _ => false)
      (diagonalTableau axis n rows) := by
  have hframe := frame_diagonalTableau axis hrows
  have hn : (diagonalTableau axis n rows).numQubits = n := numQubits_diagonalTableau axis
  have hvalid : (diagonalTableau axis n rows).frame.Valid := by
    rw [hframe]
    exact h.valid axis
  refine ⟨validOn_iff_frame.mpr ⟨hn, hvalid⟩, fun q hq => ?_, fun q hq => ?_⟩
  · apply hvalid.lift_injective
    rw [lift_imageOf hvalid (by omega), hframe, lift_diagonalFrame_pauli]
  · apply hvalid.lift_injective
    rw [lift_imageOf hvalid (by omega), twist_false, iPow_zero, one_mul, hframe]
    exact (lift_diagonalFrame_operator axis hq rfl).symm

theorem SignedDiagonal.matchSign {C : CliffordUnitary}
    (h : SignedDiagonal axis n S sign C) (E : CliffordUnitary) {q : ℕ} (hq : q < n)
    (hsign : sign q = false) : SignedDiagonal axis n S
      (fun j => if j = q then decide ((diagonalImage axis S q * (E.imageZ q).toPhased).phase ≠ 0)
        else sign j) (E.matchSign axis C q) := by
  have himage : ((E.imageZ q).mulAssignLeft (C.imageOf axis.other q)).toPhased =
      diagonalImage axis S q * (E.imageZ q).toPhased := by
    rw [toPhased_mulAssignLeft, h.across q hq, hsign, twist_false, iPow_zero, one_mul]
  have hphase : (phaseValue
      ((E.imageZ q).mulAssignLeft (C.imageOf axis.other q)).xzPhaseExp != 0) =
        decide ((diagonalImage axis S q * (E.imageZ q).toPhased).phase ≠ 0) := by
    rw [← himage, toPhased_phase, Bool.eq_iff_iff, bne_iff_ne, decide_eq_true_iff]
    exact not_congr phaseResidue_eq_zero_iff.symm
  unfold CliffordUnitary.matchSign
  simp only [hphase]
  generalize decide ((diagonalImage axis S q * (E.imageZ q).toPhased).phase ≠ 0) = b
  cases b with
  | false =>
    have hsame : (fun j => if j = q then false else sign j) = sign := by
      funext j
      split_ifs with hj
      · rw [hj, hsign]
      · rfl
    rw [hsame]
    exact h
  | true =>
    have hn := h.valid.numQubits_eq
    have hbelow : (C.imageOf axis q).Below C.numQubits := by
      unfold PauliUnitary.Below
      rw [h.along q hq, hn]
      cases axis
      · exact below_X.mpr hq
      · exact below_Z.mpr hq
    have hfollows := follows_leftMulPauli h.valid.frame hbelow
    have hcount : (C.leftMulPauli (C.imageOf axis q)).numQubits = n := by
      rw [leftMulPauli_eq_updatePreimages, numQubits_updatePreimages, hn]
    have hmoved : ∀ (a : XOrZ) (j : ℕ), j < n →
        ((C.leftMulPauli (C.imageOf axis q)).imageOf a j).toPhased =
          conjugate (axis.pauli q) (C.imageOf a j).toPhased := by
      intro a j hj
      apply hfollows.valid.lift_injective
      rw [lift_imageOf hfollows.valid (by omega), ← h.along q hq, hfollows.lift_map,
        lift_imageOf h.valid.frame (by omega)]
    refine ⟨validOn_iff_frame.mpr ⟨hcount, hfollows.valid⟩, fun j hj => ?_, fun j hj => ?_⟩
    · rw [if_pos rfl, hmoved axis j hj, h.along j hj, conjugate_apply, axis.anti_pauli,
        twist_false, iPow_zero, one_mul]
    · have hanti : anti (axis.pauli q) (diagonalImage axis S j) = decide (j = q) := by
        rw [anti_comm, ← axis.index_other_bits, diagonalImage, (axis.bits_operator _ _ _).2,
          index_unit]
      rw [if_pos rfl, hmoved axis.other j hj, h.across j hj, conjugate_apply, anti_mul_right,
        anti_iPow_right, Bool.false_xor, hanti, ← mul_assoc, ← iPow_add, ← twist_xor]
      by_cases hjq : j = q
      · simp [hjq, hsign]
      · simp [hjq]

theorem SignedDiagonal.foldl_matchSign (E : CliffordUnitary) {qubits : List ℕ}
    (hnodup : qubits.Nodup) (hlt : ∀ q ∈ qubits, q < n)
    (hsign : ∀ q ∈ qubits, sign q = false) {C : CliffordUnitary}
    (h : SignedDiagonal axis n S sign C) : SignedDiagonal axis n S (fun j => if j ∈ qubits then
        decide ((diagonalImage axis S j * (E.imageZ j).toPhased).phase ≠ 0) else sign j)
      (qubits.foldl (E.matchSign axis) C) := by
  induction qubits generalizing C sign with
  | nil => simpa using h
  | cons q qubits ih =>
    obtain ⟨habsent, hnodup⟩ := nodup_cons.mp hnodup
    have hstep := h.matchSign E (hlt q (by simp)) (hsign q (by simp))
    have hrest := ih hnodup (fun j hj => hlt j (by simp [hj])) (fun j hj => by
      have hjq : j ≠ q := by
        rintro rfl
        exact habsent hj
      rw [if_neg hjq]
      exact hsign j (by simp [hj])) hstep
    rw [foldl_cons]
    convert hrest using 2 with j
    by_cases hjq : j = q
    · subst hjq
      simp [habsent]
    · simp [hjq]

end Signs

/-- The function meets its purpose on an encoder: it returns a unitary exactly for the resource
states, and that unitary is diagonal and makes the encoded state of the product state. -/
def RecoversDiagonalUnitary (E : CliffordUnitary) (axis : XOrZ) (n : ℕ) : Prop :=
  ((∃ D, E.unitaryFromDiagonalResourceState axis = some D) ↔
      IsDiagonalResource axis n (E.imageGroup .Z n)) ∧
    ∀ D, E.unitaryFromDiagonalResourceState axis = some D →
      D.ValidOn n ∧ D.projective.isDiagonal axis = true ∧
        (∀ q < n, (D.imageOf axis q).toPhased = axis.pauli q) ∧
          D.imageGroup axis.other n = E.imageGroup .Z n

/-- The operator with the bits of a stabilizer that a diagonal tableau without signs has for its
image on a qubit: its phase is determined by its own bit along the axis. -/
def unsignedImage (axis : XOrZ) (q : ℕ) (g : PhasedPauli) : PhasedPauli :=
  axis.operator (-quarter ((axis.bits g).index q)) (axis.other.bits g) (axis.bits g)

/-- On every qubit, the product of the unsigned stabilizer of the qubit with the image of `Z` has
phase zero exactly when the stabilizer carries no sign. -/
def SignsMatch (E : CliffordUnitary) (axis : XOrZ) (n : ℕ) : Prop :=
  IsDiagonalResource axis n (E.imageGroup .Z n) →
    ∀ q < n, ∀ g ∈ E.imageGroup .Z n, axis.other.bits g = Bits.unit q →
      ((unsignedImage axis q g * (E.imageZ q).toPhased).phase = 0 ↔ g = unsignedImage axis q g)

section Result

variable {E : CliffordUnitary} {n : ℕ} (hE : E.ValidOn n) (axis : XOrZ)

include hE

theorem unitaryFromDiagonalResourceState_eq : E.unitaryFromDiagonalResourceState axis =
      (E.diagonalResourceForm axis).map fun m =>
        (List.range n).foldl (E.matchSign axis)
          (diagonalTableau axis n (splitBlocks n m).2) := by
  have hn := hE.numQubits_eq
  unfold unitaryFromDiagonalResourceState blocksFromDiagonalResourceState diagonalResourceForm
  rw [Option.map_map, hn]
  cases axis with
  | X =>
    rw [isXDiagonalResourceEncoder, numQubits_projective, hn]
    rfl
  | Z =>
    rw [isZDiagonalResourceEncoder, numQubits_projective, hn]
    rfl

variable {D : CliffordUnitary}

theorem exists_signedDiagonal (hD : E.unitaryFromDiagonalResourceState axis = some D) :
    ∃ (S : ℕ → Bits) (g : ℕ → PhasedPauli), IsGraph axis n (E.imageGroup .Z n) g ∧
      (∀ q < n, axis.bits (g q) = S q) ∧ SignedDiagonal axis n S (fun q => if q ∈ List.range n then
          decide ((diagonalImage axis S q * (E.imageZ q).toPhased).phase ≠ 0) else false) D := by
  have hlength := length_stabilizerChain hE axis
  rw [unitaryFromDiagonalResourceState_eq hE] at hD
  obtain ⟨m, hm, rfl⟩ := Option.map_eq_some_iff.mp hD
  unfold diagonalResourceForm at hm
  rw [hE.numQubits_eq] at hm
  obtain ⟨S, hS, hsymm, hrows, hblock⟩ := isReducedSymmetric_spec hlength hm
  obtain ⟨g, hgraph, hbits⟩ := exists_isGraph hE axis hS hrows
  have hsplit : (splitBlocks n m).2.length = n := by
    simp only [splitBlocks, length_map, length_range']
    omega
  have hrow : ∀ q < n, (splitBlocks n m).2.getD q 0 = S q := by
    intro q hq
    rw [getD_eq_getElem _ _ (by omega)]
    simp only [splitBlocks, getElem_map, getElem_range', one_mul]
    exact hblock q hq
  have hsymmetric : SymmetricRows n fun q => (splitBlocks n m).2.getD q 0 := by
    refine ⟨fun i hi => ?_, fun i hi j hj => ?_⟩
    · rw [hrow i hi]
      exact hS i hi
    · rw [hrow i hi, hrow j hj]
      exact hsymm i hi j hj
  have hstart := @signedDiagonal_tableau axis _ _ hsplit hsymmetric
  exact ⟨_, g, hgraph, fun q hq => (hbits q hq).trans (hrow q hq).symm,
    hstart.foldl_matchSign E nodup_range (fun q hq => mem_range.mp hq)
      fun q _ => rfl⟩

theorem imageGroup_eq_iff {S : ℕ → Bits} {g : ℕ → PhasedPauli}
    (hgraph : IsGraph axis n (E.imageGroup .Z n) g) (hbits : ∀ q < n, axis.bits (g q) = S q)
    (hD : SignedDiagonal axis n S sign D) : D.imageGroup axis.other n = E.imageGroup .Z n ↔
      ∀ q < n, sign q = false ↔ g q = diagonalImage axis S q := by
  have himage : ∀ q, axis.other.bits (diagonalImage axis S q) = unit q ∧
      axis.bits (diagonalImage axis S q) = S q :=
    fun q => ⟨(axis.bits_operator _ _ _).2, (axis.bits_operator _ _ _).1⟩
  have hsigned : ∀ q < n, ∃ b, g q = iPow (twist b) * diagonalImage axis S q := by
    intro q hq
    refine axis.exists_twist_mul_of_bits (orderTwo_of_mem_imageGroup_Z hE (hgraph.mem q hq))
      (orderTwo_diagonal axis S q).2 ?_ ?_
    · rw [hgraph.across q hq, (himage q).1]
    · rw [hbits q hq, (himage q).2]
  have hcancel : ∀ (b : Bool) (p : PhasedPauli), iPow (twist b) * p = p ↔ b = false := by
    intro b p
    constructor
    · intro h
      have hone : iPow (twist b) = 1 := mul_eq_right.mp h
      have hphase := congrArg PhasedPauli.phase hone
      simpa using hphase
    · rintro rfl
      rw [twist_false, iPow_zero, one_mul]
  constructor
  · intro hgroup q hq
    have hmem : iPow (twist (sign q)) * diagonalImage axis S q ∈ E.imageGroup .Z n := by
      rw [← hgroup, ← hD.across q hq]
      exact Subgroup.subset_closure ⟨q, hq, rfl⟩
    have heq := hgraph.eq_of_other_bits_eq (hgraph.mem q hq) hmem (by
      rw [hgraph.across q hq, XOrZ.bits_mul, XOrZ.bits_iPow, zero_add, (himage q).1])
    rw [heq, hcancel]
  · intro hsign
    rw [← hgraph.closure_eq]
    unfold imageGroup
    congr 1
    refine Set.ext fun r => exists_congr fun q => and_congr_right fun hq => ?_
    obtain ⟨b, hb⟩ := hsigned q hq
    have hsame := hsign q hq
    rw [hb, hcancel] at hsame
    have hsb : sign q = b := by
      cases b <;> simpa using hsame
    rw [hD.across q hq, hb, hsb]

omit hE in
theorem isDiagonal_of_signedDiagonal {S : ℕ → Bits} (hD : SignedDiagonal axis n S sign D) :
    D.projective.isDiagonal axis = true := by
  have hn := hD.valid.numQubits_eq
  have hf := hD.valid.frame
  have haxis : ∀ q, q < D.numQubits → D.frame.lift (axis.pauli q) = axis.pauli q := by
    intro q hq
    have hlift := lift_imageOf hf hq axis
    rwa [hD.along q (by omega)] at hlift
  refine isDiagonal_projective haxis fun q hq => ext_index fun j => ?_
  rw [axis.index_other_bits, index_unit]
  rcases Nat.lt_or_ge j D.numQubits with hj | hj
  · rw [← haxis j hj, hf.anti_lift, axis.anti_other_pauli]
  · have hfix : axis.pauli j = D.frame.lift (axis.pauli j) := by
      cases axis
      · exact ((D.frame.lift_X j).trans (frame_x_of_le hj)).symm
      · exact ((D.frame.lift_Z j).trans (frame_z_of_le hj)).symm
    rw [hfix, hf.anti_lift, axis.anti_other_pauli]

end Result

/-- The function meets its purpose exactly on the encoders whose comparisons find the signs. -/
theorem recoversDiagonalUnitary_iff (E : CliffordUnitary) (n : ℕ) (hE : E.ValidOn n) (axis : XOrZ) :
    RecoversDiagonalUnitary E axis n ↔ SignsMatch E axis n := by
  have hsome : (∃ D, E.unitaryFromDiagonalResourceState axis = some D) ↔
      IsDiagonalResource axis n (E.imageGroup .Z n) := by
    rw [isDiagonalResource_iff hE axis, unitaryFromDiagonalResourceState_eq hE]
    simp [Option.map_eq_some_iff]
  have hsigns : ∀ D, E.unitaryFromDiagonalResourceState axis = some D →
      (D.imageGroup axis.other n = E.imageGroup .Z n ↔
        ∀ q < n, ∀ g ∈ E.imageGroup .Z n, axis.other.bits g = unit q →
          ((unsignedImage axis q g * (E.imageZ q).toPhased).phase = 0 ↔
            g = unsignedImage axis q g)) := by
    intro D hD
    obtain ⟨S, g, hgraph, hbits, hsigned⟩ := exists_signedDiagonal hE axis hD
    have hunsigned : ∀ q < n, unsignedImage axis q (g q) = diagonalImage axis S q := by
      intro q hq
      rw [unsignedImage, hbits q hq, hgraph.across q hq]
      rfl
    rw [imageGroup_eq_iff hE axis hgraph hbits hsigned]
    refine forall₂_congr fun q hq => ?_
    rw [if_pos (mem_range.mpr hq), decide_eq_false_iff_not, not_not]
    constructor
    · intro h p hp hacross
      have hpg := hgraph.eq_of_other_bits_eq hp (hgraph.mem q hq)
        (hacross.trans (hgraph.across q hq).symm)
      rw [hpg, hunsigned q hq]
      exact h
    · intro h
      have hq' := h (g q) (hgraph.mem q hq) (hgraph.across q hq)
      rwa [hunsigned q hq] at hq'
  constructor
  · rintro ⟨-, hresult⟩ hresource
    obtain ⟨D, hD⟩ := hsome.mpr hresource
    exact (hsigns D hD).mp (hresult D hD).2.2.2
  · intro hmatch
    refine ⟨hsome, fun D hD => ?_⟩
    obtain ⟨S, g, -, -, hsigned⟩ := exists_signedDiagonal hE axis hD
    exact ⟨hsigned.valid, isDiagonal_of_signedDiagonal axis hsigned, hsigned.along,
      (hsigns D hD).mpr (hmatch (hsome.mp ⟨D, hD⟩))⟩

theorem recoversDiagonalUnitary_iff_identity :
    RecoversDiagonalUnitary (identity 2) .X 2 ↔ SignsMatch (identity 2) .X 2 :=
  recoversDiagonalUnitary_iff (identity 2) 2 (validOn_identity 2) .X

/-- An encoder of the state with the stabilizers `X₀` and `-X₁` whose first image is `X₀ X₁`: the
comparison with that image misses that the reduced stabilizer of the first qubit is `-X₀`. -/
def unreducedEncoder : CliffordUnitary :=
  ((((identity 2).leftMulHadamard 0).leftMulHadamard 1).leftMulZ 1).leftMulCx 0 1

theorem not_recoversDiagonalUnitary :
    ¬ ∀ (E : CliffordUnitary) (n : ℕ), E.ValidOn n → ∀ axis, RecoversDiagonalUnitary E axis n := by
  intro h
  have hvalid : unreducedEncoder.ValidOn 2 := by decide +kernel
  have hresult := (h unreducedEncoder 2 hvalid .Z).2
  have himage : (unreducedEncoder.unitaryFromDiagonalResourceState .Z).map
      (fun D => (D.imageX 0).toPhased) = some (X 0) := by
    decide +kernel
  obtain ⟨D, hD, hX⟩ := Option.map_eq_some_iff.mp himage
  have hmem : X 0 ∈ unreducedEncoder.imageGroup .Z 2 := by
    rw [← (hresult D hD).2.2.2, ← hX]
    exact Subgroup.subset_closure ⟨0, by decide, rfl⟩
  have hphase := (GeneratorFrame.mem_stabilizers_iff.mp ((mem_imageGroup_Z_iff hvalid).mp hmem).1).2
  revert hphase
  decide +kernel

end CliffordUnitary

end QdkEc
