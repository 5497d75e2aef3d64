import QdkEc.Paulimer.CliffordUnitary

/-!
# Preimages and images under a Clifford unitary

This module models the identity tableau, the validity check and the preimage and
image of a Pauli.  Preimages multiply stored rows.  Images read their bits from
the columns and recover the phase from the preimage of the unphased image.
-/

namespace QdkEc

open PhasedPauli PauliUnitary List GeneratorFrame Bits

namespace PauliUnitary

def mulAssignLeftX (p : PauliUnitary) (qubit : ℕ) : PauliUnitary :=
  { p with xBits := Bits.unit qubit + p.xBits }

def mulAssignRightZ (p : PauliUnitary) (qubit : ℕ) : PauliUnitary :=
  { p with zBits := Bits.unit qubit + p.zBits }

end PauliUnitary

theorem AlignedBitMatrix.rowCount_zeros_mul_four (numQubits : ℕ) :
    (AlignedBitMatrix.zeros (numQubits * 4) numQubits).rowCount =
      4 * (AlignedBitMatrix.zeros (numQubits * 4) numQubits).columnCount := by
  simp [mul_comm]

namespace CliffordUnitary

/-- The tableau whose preimages are all the identity operator. -/
def zero (numQubits : ℕ) : CliffordUnitary where
  bits := AlignedBitMatrix.zeros (numQubits * 4) numQubits
  preimagePhaseExponents := List.replicate (2 * numQubits) 0
  rowCount_eq := AlignedBitMatrix.rowCount_zeros_mul_four numQubits
  length_eq := by simp

/-- Write the preimages of the identity into a zero tableau. -/
def setIdentityPreImages (C : CliffordUnitary) : CliffordUnitary :=
  C.rewritePreimages (fun index p => p.mulAssignLeftX index)
    (fun index p => p.mulAssignRightZ index)
    (List.range C.numQubits)

/-- The identity tableau. -/
def identity (numQubits : ℕ) : CliffordUnitary :=
  (zero numQubits).setIdentityPreImages

@[simp]
theorem numQubits_zero (n : ℕ) : (zero n).numQubits = n :=
  rfl

@[simp]
theorem numQubits_identity (n : ℕ) : (identity n).numQubits = n := by
  unfold identity setIdentityPreImages
  rw [numQubits_rewritePreimages, numQubits_zero]

theorem preimageXView_zero {n i : ℕ} : (zero n).preimageXView i = neutralElement := by
  by_cases h : phaseOfPreimageX i < 2 * n <;>
    simp [zero, preimageXView, neutralElement, getD_eq_getElem?_getD, h]

theorem preimageZView_zero {n i : ℕ} : (zero n).preimageZView i = neutralElement := by
  by_cases h : phaseOfPreimageZ i < 2 * n <;>
    simp [zero, preimageZView, neutralElement, getD_eq_getElem?_getD, h]

theorem views_identity {n j : ℕ} (hj : j < n) : (identity n).preimageXView j = PauliUnitary.x j ∧
      (identity n).preimageZView j = PauliUnitary.z j := by
  obtain ⟨hx, hz⟩ := views_rewritePreimages (C := zero n)
    (fun index p => p.mulAssignLeftX index) (fun index p => p.mulAssignRightZ index)
    nodup_range (fun q hq => mem_range.mp hq) (j := j) hj
  have hmem : j ∈ List.range (zero n).numQubits := mem_range.mpr hj
  rw [if_pos hmem, preimageXView_zero] at hx
  rw [if_pos hmem, preimageZView_zero] at hz
  refine ⟨hx.trans ?_, hz.trans ?_⟩
  · simp [mulAssignLeftX, neutralElement, PauliUnitary.x]
  · simp [mulAssignRightZ, neutralElement, PauliUnitary.z]

theorem frame_identity (n : ℕ) : (identity n).frame = GeneratorFrame.identity := by
  apply GeneratorFrame.ext
  · funext i
    by_cases hi : i < n
    · rw [frame_x (by simpa using hi), (views_identity hi).1]
      rfl
    · rw [frame_x_of_le (by simpa using hi)]
      rfl
  · funext i
    by_cases hi : i < n
    · rw [frame_z (by simpa using hi), (views_identity hi).2]
      rfl
    · rw [frame_z_of_le (by simpa using hi)]
      rfl

/-- The preimages of a qubit have order two, anticommute, and commute with those of later qubits. -/
def isValidAt (C : CliffordUnitary) (index : ℕ) : Bool :=
  let xPreimage := C.preimageXView index
  let zPreimage := C.preimageZView index
  xPreimage.isOrderTwo && zPreimage.isOrderTwo && !(xPreimage.commutesWith zPreimage) &&
    (List.range' (index + 1) (C.numQubits - (index + 1))).all fun otherIndex =>
      let otherXPreimage := C.preimageXView otherIndex
      let otherZPreimage := C.preimageZView otherIndex
      let xx := xPreimage.antiCommutesWith otherXPreimage
      let xz := xPreimage.antiCommutesWith otherZPreimage
      let zx := zPreimage.antiCommutesWith otherXPreimage
      let zz := zPreimage.antiCommutesWith otherZPreimage
      !(xx || xz || zx || zz)

/-- The stored preimages satisfy the relations of the generators. -/
def isValid (C : CliffordUnitary) : Bool :=
  (List.range C.numQubits).all C.isValidAt

/-- No stored row has a bit at or beyond the last column. -/
def PaddingClear (C : CliffordUnitary) : Prop :=
  ∀ i, i < C.numQubits → (C.preimageXView i).Below C.numQubits ∧
    (C.preimageZView i).Below C.numQubits

/-- The tableau is a valid Clifford unitary on `n` qubits. -/
structure ValidOn (n : ℕ) (C : CliffordUnitary) : Prop where
  numQubits_eq : C.numQubits = n
  isValid_eq : C.isValid = true
  paddingClear : C.PaddingClear

instance (C : CliffordUnitary) : Decidable C.PaddingClear :=
  inferInstanceAs (Decidable (∀ i, i < C.numQubits → _))

instance (n : ℕ) (C : CliffordUnitary) : Decidable (C.ValidOn n) :=
  decidable_of_iff (C.numQubits = n ∧ C.isValid = true ∧ C.PaddingClear)
    ⟨fun h => ⟨h.1, h.2.1, h.2.2⟩, fun h => ⟨h.1, h.2, h.3⟩⟩

variable {C : CliffordUnitary}

theorem isValidAt_iff {i : ℕ} : C.isValidAt i = true ↔
      (C.preimageXView i).toPhased.OrderTwo ∧ (C.preimageZView i).toPhased.OrderTwo ∧
        anti (C.preimageXView i).toPhased (C.preimageZView i).toPhased = true ∧
          ∀ j, i < j → j < C.numQubits →
            anti (C.preimageXView i).toPhased (C.preimageXView j).toPhased = false ∧
              anti (C.preimageXView i).toPhased (C.preimageZView j).toPhased = false ∧
                anti (C.preimageZView i).toPhased (C.preimageXView j).toPhased = false ∧
                  anti (C.preimageZView i).toPhased (C.preimageZView j).toPhased = false := by
  simp only [isValidAt, Bool.and_eq_true, all_eq_true, mem_range'_1,
    commutesWith, Bool.not_not, antiCommutesWith_eq,
    isOrderTwo_iff, Bool.not_eq_true', Bool.or_eq_false_iff, and_assoc]
  refine and_congr_right fun _ => and_congr_right fun _ => and_congr_right fun _ => ?_
  constructor
  · intro h j hij hj
    exact h j ⟨by omega, by omega⟩
  · rintro h j ⟨hij, hj⟩
    exact h j (by omega) (by omega)

/-- The validity check decides the relations of the frame. -/
theorem isValid_iff_frame (hpad : C.PaddingClear) : C.isValid = true ↔ C.frame.Valid := by
  simp only [isValid, all_eq_true, mem_range, isValidAt_iff]
  constructor
  · intro h
    have hfar : ∀ i j, i < C.numQubits → C.numQubits ≤ j →
        anti (C.preimageXView i).toPhased (X j) = false ∧
          anti (C.preimageXView i).toPhased (Z j) = false ∧
            anti (C.preimageZView i).toPhased (X j) = false ∧
              anti (C.preimageZView i).toPhased (Z j) = false := by
      intro i j hi hj
      obtain ⟨hx, hz⟩ := hpad i hi
      obtain ⟨hxx, hxz⟩ := below_iff_commutes.mp hx j hj
      obtain ⟨hzx, hzz⟩ := below_iff_commutes.mp hz j hj
      exact ⟨hxx, hxz, hzx, hzz⟩
    refine ⟨?_, ?_, ?_, ?_, ?_⟩
    · intro i
      by_cases hi : i < C.numQubits
      · simpa [frame, hi] using (h i hi).1
      · simpa [frame, hi] using orderTwo_X i
    · intro i
      by_cases hi : i < C.numQubits
      · simpa [frame, hi] using (h i hi).2.1
      · simpa [frame, hi] using orderTwo_Z i
    · intro i j
      by_cases hi : i < C.numQubits <;> by_cases hj : j < C.numQubits
      · rw [frame_x hi, frame_z hj]
        rcases Nat.lt_trichotomy i j with hij | rfl | hij
        · rw [((h i hi).2.2.2 j hij hj).2.1]
          simp
          omega
        · simp [(h i hi).2.2.1]
        · rw [anti_comm, ((h j hj).2.2.2 i hij hi).2.2.1]
          simp
          omega
      · rw [frame_x hi, frame_z_of_le (by omega), (hfar i j hi (by omega)).2.1]
        simp
        omega
      · rw [frame_x_of_le (by omega), frame_z hj, anti_comm, (hfar j i hj (by omega)).2.2.1]
        simp
        omega
      · rw [frame_x_of_le (by omega), frame_z_of_le (by omega)]
        simp
    · intro i j
      by_cases hi : i < C.numQubits <;> by_cases hj : j < C.numQubits
      · rw [frame_x hi, frame_x hj]
        rcases Nat.lt_trichotomy i j with hij | rfl | hij
        · exact ((h i hi).2.2.2 j hij hj).1
        · exact anti_self _
        · rw [anti_comm]
          exact ((h j hj).2.2.2 i hij hi).1
      · rw [frame_x hi, frame_x_of_le (by omega)]
        exact (hfar i j hi (by omega)).1
      · rw [frame_x_of_le (by omega), frame_x hj, anti_comm]
        exact (hfar j i hj (by omega)).1
      · rw [frame_x_of_le (by omega), frame_x_of_le (by omega)]
        simp
    · intro i j
      by_cases hi : i < C.numQubits <;> by_cases hj : j < C.numQubits
      · rw [frame_z hi, frame_z hj]
        rcases Nat.lt_trichotomy i j with hij | rfl | hij
        · exact ((h i hi).2.2.2 j hij hj).2.2.2
        · exact anti_self _
        · rw [anti_comm]
          exact ((h j hj).2.2.2 i hij hi).2.2.2
      · rw [frame_z hi, frame_z_of_le (by omega)]
        exact (hfar i j hi (by omega)).2.2.2
      · rw [frame_z_of_le (by omega), frame_z hj, anti_comm]
        exact (hfar j i hj (by omega)).2.2.2
      · rw [frame_z_of_le (by omega), frame_z_of_le (by omega)]
        simp
  · intro hf i hi
    have hx := hf.orderTwo_x i
    have hz := hf.orderTwo_z i
    have hxz := hf.anti_x_z i i
    rw [frame_x hi] at hx hxz
    rw [frame_z hi] at hz hxz
    refine ⟨hx, hz, by simpa using hxz, ?_⟩
    intro j hij hj
    have hne : i ≠ j := by omega
    have hxx := hf.anti_x_x i j
    have hxz := hf.anti_x_z i j
    have hzx := hf.anti_x_z j i
    have hzz := hf.anti_z_z i j
    rw [frame_x hi, frame_x hj] at hxx
    rw [frame_x hi, frame_z hj] at hxz
    rw [frame_x hj, frame_z hi, anti_comm] at hzx
    rw [frame_z hi, frame_z hj] at hzz
    exact ⟨hxx, by simpa [hne] using hxz, by simpa [hne.symm] using hzx, hzz⟩

theorem paddingClear_of_frame (hf : C.frame.Valid) : C.PaddingClear := by
  intro i hi
  constructor
  · have hbelow := (hf.below_lift_iff C.fixesFrom_frame).mpr (below_X.mpr hi)
    rw [lift_X, frame_x hi] at hbelow
    exact hbelow
  · have hbelow := (hf.below_lift_iff C.fixesFrom_frame).mpr (below_Z.mpr hi)
    rw [lift_Z, frame_z hi] at hbelow
    exact hbelow

theorem validOn_iff_frame {n : ℕ} : C.ValidOn n ↔ C.numQubits = n ∧ C.frame.Valid := by
  constructor
  · intro h
    exact ⟨h.numQubits_eq, (isValid_iff_frame h.paddingClear).mp h.isValid_eq⟩
  · rintro ⟨hn, hf⟩
    have hpad := paddingClear_of_frame hf
    exact ⟨hn, (isValid_iff_frame hpad).mpr hf, hpad⟩

theorem validOn_of_frame (hf : C.frame.Valid) : C.ValidOn C.numQubits :=
  validOn_iff_frame.mpr ⟨rfl, hf⟩

theorem ValidOn.frame {n : ℕ} (h : C.ValidOn n) : C.frame.Valid :=
  (validOn_iff_frame.mp h).2

theorem validOn_identity (n : ℕ) : (identity n).ValidOn n := by
  rw [validOn_iff_frame, frame_identity]
  exact ⟨numQubits_identity n, valid_identity⟩

/-- Multiply by the preimage of a product of `X`. -/
def mulAssignRightPreimageXBits (C : CliffordUnitary) (target : PauliUnitary) (bits : Bits) :
    PauliUnitary :=
  bits.support.foldl (fun target id => target.mulAssignRight (C.preimageXView id)) target

/-- Multiply by the preimage of a product of `Z`. -/
def mulAssignRightPreimageZBits (C : CliffordUnitary) (target : PauliUnitary) (bits : Bits) :
    PauliUnitary :=
  bits.support.foldl (fun target id => target.mulAssignRight (C.preimageZView id)) target

/-- Multiply by the preimage of a Pauli. -/
def mulAssignRightPreimage (C : CliffordUnitary) (target pauli : PauliUnitary) : PauliUnitary :=
  let target := C.mulAssignRightPreimageXBits target pauli.xBits
  let target := C.mulAssignRightPreimageZBits target pauli.zBits
  target.mulAssignPhaseFrom pauli

def preimage (C : CliffordUnitary) (pauli : PauliUnitary) : PauliUnitary :=
  C.mulAssignRightPreimage PauliUnitary.neutralElement pauli

theorem toPhased_foldl_mulAssignRight (g : ℕ → PauliUnitary) (l : List ℕ) (target : PauliUnitary) :
    (l.foldl (fun target id => target.mulAssignRight (g id)) target).toPhased =
      target.toPhased * (l.map fun id => (g id).toPhased).prod := by
  induction l generalizing target with
  | nil => simp
  | cons id l ih => rw [foldl_cons, ih, toPhased_mulAssignRight, map_cons, prod_cons, mul_assoc]

theorem toPhased_mulAssignRightPreimageXBits {bits : Bits}
    (hb : bits.Below C.numQubits) (target : PauliUnitary) :
    (C.mulAssignRightPreimageXBits target bits).toPhased =
      target.toPhased * Bits.orderedProd C.frame.x bits := by
  unfold mulAssignRightPreimageXBits
  rw [toPhased_foldl_mulAssignRight, Bits.orderedProd]
  congr 2
  apply map_congr_left
  intro id hid
  exact (frame_x (hb.lt_of_index (mem_support.mp hid))).symm

theorem toPhased_mulAssignRightPreimageZBits {bits : Bits}
    (hb : bits.Below C.numQubits) (target : PauliUnitary) :
    (C.mulAssignRightPreimageZBits target bits).toPhased =
      target.toPhased * Bits.orderedProd C.frame.z bits := by
  unfold mulAssignRightPreimageZBits
  rw [toPhased_foldl_mulAssignRight, Bits.orderedProd]
  congr 2
  apply map_congr_left
  intro id hid
  exact (frame_z (hb.lt_of_index (mem_support.mp hid))).symm

variable {pauli : PauliUnitary}

theorem toPhased_preimage (hp : pauli.Below C.numQubits) :
    (C.preimage pauli).toPhased = C.frame.lift pauli.toPhased := by
  have hx : pauli.xBits.Below C.numQubits := hp.1
  have hz : pauli.zBits.Below C.numQubits := hp.2
  unfold preimage mulAssignRightPreimage
  rw [toPhased_mulAssignPhaseFrom, toPhased_mulAssignRightPreimageZBits hz,
    toPhased_mulAssignRightPreimageXBits hx, toPhased_neutralElement, one_mul,
    lift, mul_assoc]
  rfl

/-- The bits of an image, read from one column. -/
def projectiveImageAt (bits : AlignedBitMatrix) (dimension qubitIndex xBitsStart zBitsStart : ℕ) :
    Bits × Bits :=
  let column := bits.column qubitIndex
  ((column.shiftDown xBitsStart).low dimension, (column.shiftDown zBitsStart).low dimension)

def xImageViewUpToPhase (C : CliffordUnitary) (qubitIndex : ℕ) : Bits × Bits :=
  projectiveImageAt C.bits C.numQubits qubitIndex (zOfPreimageZOffset C.numQubits)
    (zOfPreimageXOffset C.numQubits)

def zImageViewUpToPhase (C : CliffordUnitary) (qubitIndex : ℕ) : Bits × Bits :=
  projectiveImageAt C.bits C.numQubits qubitIndex (xOfPreimageZOffset C.numQubits)
    (xOfPreimageXOffset C.numQubits)

def imageUpToPhase (C : CliffordUnitary) (pauli : PauliUnitary) : Bits × Bits :=
  let target := pauli.xBits.support.foldl (fun target id => target + C.xImageViewUpToPhase id) 0
  pauli.zBits.support.foldl (fun target id => target + C.zImageViewUpToPhase id) target

/-- The image with the given bits whose preimage has phase zero. -/
def imageWithPhase (C : CliffordUnitary) (xzBits : Bits × Bits) : PauliUnitary :=
  let preimage := C.mulAssignRightPreimageXBits PauliUnitary.neutralElement xzBits.1
  let preimage := C.mulAssignRightPreimageZBits preimage xzBits.2
  PauliUnitary.mulAssignPhaseFrom ⟨xzBits.1, xzBits.2, 0⟩ preimage.complexConjugate

def image (C : CliffordUnitary) (pauli : PauliUnitary) : PauliUnitary :=
  (C.imageWithPhase (C.imageUpToPhase pauli)).mulAssignPhaseFrom pauli

def imageX (C : CliffordUnitary) (qubitIndex : ℕ) : PauliUnitary :=
  C.imageWithPhase (0 + C.xImageViewUpToPhase qubitIndex)

def imageZ (C : CliffordUnitary) (qubitIndex : ℕ) : PauliUnitary :=
  C.imageWithPhase (0 + C.zImageViewUpToPhase qubitIndex)

theorem foldl_add_eq_sum {M : Type*} [AddCommMonoid M] (g : ℕ → M) (l : List ℕ) (a : M) :
    l.foldl (fun target id => target + g id) a = a + (l.map g).sum := by
  induction l generalizing a with
  | nil => simp
  | cons id l ih => rw [foldl_cons, ih, map_cons, sum_cons, add_assoc]

theorem fst_sum_map (g : ℕ → Bits × Bits) (l : List ℕ) :
    (l.map g).sum.1 = (l.map fun id => (g id).1).sum := by
  induction l with
  | nil => rfl
  | cons id l ih => simp [ih]

theorem snd_sum_map (g : ℕ → Bits × Bits) (l : List ℕ) :
    (l.map g).sum.2 = (l.map fun id => (g id).2).sum := by
  induction l with
  | nil => rfl
  | cons id l ih => simp [ih]

theorem index_imageUpToPhase (C : CliffordUnitary) (pauli : PauliUnitary) (j : ℕ) :
    (C.imageUpToPhase pauli).1.index j =
        (decide (j < C.numQubits) && anti pauli.toPhased (C.preimageZView j).toPhased) ∧
      (C.imageUpToPhase pauli).2.index j =
        (decide (j < C.numQubits) && anti pauli.toPhased (C.preimageXView j).toPhased) := by
  unfold imageUpToPhase
  simp only [foldl_add_eq_sum, zero_add, Prod.fst_add, Prod.snd_add, fst_sum_map, snd_sum_map,
    index_add]
  by_cases hj : j < C.numQubits
  · constructor
    · rw [index_sum_support ((C.preimageZView j).zBits),
        index_sum_support ((C.preimageZView j).xBits)]
      · simp [hj, anti]
      · intro q
        simp [zImageViewUpToPhase, projectiveImageAt, hj, preimageZView, AlignedBitMatrix.get,
          xOfPz, add_comm]
      · intro q
        simp [xImageViewUpToPhase, projectiveImageAt, hj, preimageZView, AlignedBitMatrix.get,
          zOfPz, add_comm]
    · rw [index_sum_support ((C.preimageXView j).zBits),
        index_sum_support ((C.preimageXView j).xBits)]
      · simp [hj, anti]
      · intro q
        simp [zImageViewUpToPhase, projectiveImageAt, hj, preimageXView, AlignedBitMatrix.get,
          xOfPx, add_comm]
      · intro q
        simp [xImageViewUpToPhase, projectiveImageAt, hj, preimageXView, AlignedBitMatrix.get,
          zOfPx, add_comm]
  · constructor
    · rw [index_sum_support 0, index_sum_support 0]
      · simp [hj]
      · intro q
        simp [zImageViewUpToPhase, projectiveImageAt, hj]
      · intro q
        simp [xImageViewUpToPhase, projectiveImageAt, hj]
    · rw [index_sum_support 0, index_sum_support 0]
      · simp [hj]
      · intro q
        simp [zImageViewUpToPhase, projectiveImageAt, hj]
      · intro q
        simp [xImageViewUpToPhase, projectiveImageAt, hj]

theorem toPhased_imageWithPhase {xzBits : Bits × Bits}
    (hx : xzBits.1.Below C.numQubits) (hz : xzBits.2.Below C.numQubits) :
    (C.imageWithPhase xzBits).toPhased =
      ⟨-(C.frame.lift ⟨0, xzBits.1, xzBits.2⟩).phase, xzBits.1, xzBits.2⟩ := by
  have hpre : (C.mulAssignRightPreimageZBits
      (C.mulAssignRightPreimageXBits neutralElement xzBits.1) xzBits.2).toPhased =
        C.frame.lift ⟨0, xzBits.1, xzBits.2⟩ := by
    rw [toPhased_mulAssignRightPreimageZBits hz, toPhased_mulAssignRightPreimageXBits hx]
    simp [lift]
  unfold imageWithPhase
  rw [toPhased_mulAssignPhaseFrom, toPhased_complexConjugate, hpre]
  ext1 <;> simp [toPhased, phaseResidue]

variable {r : PhasedPauli}

section

variable (hf : C.frame.Valid)

include hf

theorem toPhased_imageWithPhase_of_lift (hr : r.Below C.numQubits) :
    (C.imageWithPhase (r.xBits, r.zBits)).toPhased = iPow (-(C.frame.lift r).phase) * r := by
  rw [toPhased_imageWithPhase hr.1 hr.2]
  have hunphased : (⟨0, r.xBits, r.zBits⟩ : PhasedPauli) = iPow (-r.phase) * r := by
    ext1 <;> simp
  rw [hunphased, hf.lift_iPow_mul]
  ext1
  · simp
  · simp
  · simp

theorem imageUpToPhase_of_lift (pauli : PauliUnitary)
    (hr : r.Below C.numQubits) (hlift : C.frame.lift r = pauli.toPhased) :
    C.imageUpToPhase pauli = (r.xBits, r.zBits) := by
  apply Prod.ext
  · apply ext_index
    intro j
    rw [(C.index_imageUpToPhase pauli j).1]
    by_cases hj : j < C.numQubits
    · have hz : (C.preimageZView j).toPhased = C.frame.lift (Z j) := by rw [lift_Z, frame_z hj]
      rw [← hlift, hz, hf.anti_lift]
      simp [hj]
    · simp [hj, hr.1.index_eq_false (Nat.not_lt.mp hj)]
  · apply ext_index
    intro j
    rw [(C.index_imageUpToPhase pauli j).2]
    by_cases hj : j < C.numQubits
    · have hx : (C.preimageXView j).toPhased = C.frame.lift (X j) := by rw [lift_X, frame_x hj]
      rw [← hlift, hx, hf.anti_lift]
      simp [hj]
    · simp [hj, hr.2.index_eq_false (Nat.not_lt.mp hj)]

theorem toPhased_image_of_lift
    (hr : r.Below C.numQubits) (hlift : C.frame.lift r = pauli.toPhased) :
    (C.image pauli).toPhased = r := by
  unfold image
  rw [imageUpToPhase_of_lift hf _ hr hlift, toPhased_mulAssignPhaseFrom,
    toPhased_imageWithPhase_of_lift hf hr, hlift, ← mul_assoc, ← iPow_add, add_neg_cancel,
    iPow_zero, one_mul]

theorem exists_lift_eq {p : PhasedPauli} (hp : p.Below C.numQubits) :
    ∃ r, r.Below C.numQubits ∧ C.frame.lift r = p := by
  obtain ⟨r, hr⟩ := hf.lift_surjective C.fixesFrom_frame p
  refine ⟨r, ?_, hr⟩
  rw [← hf.below_lift_iff C.fixesFrom_frame, hr]
  exact hp

theorem lift_image (hp : pauli.Below C.numQubits) :
    C.frame.lift (C.image pauli).toPhased = pauli.toPhased := by
  obtain ⟨r, hr, hlift⟩ := exists_lift_eq hf hp
  rw [toPhased_image_of_lift hf hr hlift, hlift]

theorem below_image (hp : pauli.Below C.numQubits) :
    (C.image pauli).Below C.numQubits := by
  obtain ⟨r, hr, hlift⟩ := exists_lift_eq hf hp
  unfold PauliUnitary.Below
  rw [toPhased_image_of_lift hf hr hlift]
  exact hr

theorem below_preimage (hp : pauli.Below C.numQubits) :
    (C.preimage pauli).Below C.numQubits := by
  unfold PauliUnitary.Below
  rw [toPhased_preimage hp, hf.below_lift_iff C.fixesFrom_frame]
  exact hp

theorem toPhased_imageX {q : ℕ} (hq : q < C.numQubits) :
    C.frame.lift (C.imageX q).toPhased = X q := by
  have himage : C.imageUpToPhase (PauliUnitary.x q) = 0 + C.xImageViewUpToPhase q := by
    simp [imageUpToPhase, PauliUnitary.x]
  have hx : (PauliUnitary.x q).Below C.numQubits := below_X.mpr hq
  have hlift := lift_image hf hx
  rw [image, himage, toPhased_mulAssignPhaseFrom] at hlift
  simpa [PauliUnitary.x, phaseResidue, imageX, toPhased, X] using hlift

theorem toPhased_imageZ {q : ℕ} (hq : q < C.numQubits) :
    C.frame.lift (C.imageZ q).toPhased = Z q := by
  have himage : C.imageUpToPhase (PauliUnitary.z q) = 0 + C.zImageViewUpToPhase q := by
    simp [imageUpToPhase, PauliUnitary.z]
  have hz : (PauliUnitary.z q).Below C.numQubits := below_Z.mpr hq
  have hlift := lift_image hf hz
  rw [image, himage, toPhased_mulAssignPhaseFrom] at hlift
  simpa [PauliUnitary.z, phaseResidue, imageZ, toPhased, Z] using hlift

end

/-- Preimage and image are mutually inverse homomorphisms, phases included. -/
theorem preimage_image_homomorphisms {C : CliffordUnitary} {n : ℕ} (hn : 1 ≤ n) (hC : C.ValidOn n)
    (p q : PauliUnitary) (hp : p.Below n) (hq : q.Below n) :
    (C.preimage (p.mulAssignRight q)).equalsTo ((C.preimage p).mulAssignRight (C.preimage q)) =
        true ∧
      (C.image (p.mulAssignRight q)).equalsTo ((C.image p).mulAssignRight (C.image q)) = true ∧
        (C.image (C.preimage p)).equalsTo p = true ∧
          (C.preimage (C.image p)).equalsTo p = true := by
  have hf := hC.frame
  obtain ⟨rfl, _, _⟩ := hC
  have hpq : (p.mulAssignRight q).Below C.numQubits := by
    unfold PauliUnitary.Below
    rw [toPhased_mulAssignRight]
    exact hp.mul hq
  simp only [equalsTo_iff, toPhased_mulAssignRight]
  refine ⟨?_, ?_, ?_, ?_⟩
  · rw [toPhased_preimage hpq, toPhased_preimage hp, toPhased_preimage hq,
      toPhased_mulAssignRight, hf.lift_mul]
  · apply hf.lift_injective
    rw [lift_image hf hpq, hf.lift_mul, lift_image hf hp, lift_image hf hq, toPhased_mulAssignRight]
  · apply hf.lift_injective
    rw [lift_image hf (below_preimage hf hp), toPhased_preimage hp]
  · rw [toPhased_preimage (below_image hf hp), lift_image hf hp]

theorem preimage_image_homomorphisms_identity : (identity 1).ValidOn 1 ∧
      ((identity 1).image ((identity 1).preimage (PauliUnitary.x 0))).equalsTo
        (PauliUnitary.x 0) = true :=
  ⟨validOn_identity 1,
    (preimage_image_homomorphisms (by decide) (validOn_identity 1) (PauliUnitary.x 0)
      (PauliUnitary.z 0) (by decide) (by decide)).2.2.1⟩

end CliffordUnitary

end QdkEc
