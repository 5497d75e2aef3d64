import QdkEc.Paulimer.CliffordGroup

/-!
# Resizing Clifford unitaries

This module models `CliffordUnitary::resize`.  Growing a tableau does not change
its frame, because the frame continues by the identity.
-/

namespace QdkEc

open PhasedPauli

namespace PauliUnitary

def isPauliX (p : PauliUnitary) (qubit : ℕ) : Bool :=
  p.xBits == Bits.unit qubit && p.zBits == 0 && phaseValue p.xzPhaseExp == 0

def isPauliZ (p : PauliUnitary) (qubit : ℕ) : Bool :=
  p.xBits == 0 && p.zBits == Bits.unit qubit && phaseValue p.xzPhaseExp == 0

theorem toPhased_assignWithOffset_below {p rhs : PauliUnitary} {n : ℕ} (hp : p.Below n)
    (hrhs : rhs.Below n) : (p.assignWithOffset rhs 0 n).toPhased = rhs.toPhased := by
  have hbits : ∀ {b other : Bits}, b.Below n → other.Below n →
      assignBitsWithOffset b other 0 n = other := by
    intro b other hb hother
    refine Bits.ext_index fun j => ?_
    rw [index_assignBitsWithOffset]
    split_ifs with hj
    · rw [Nat.sub_zero]
    · rw [hb.index_eq_false (by omega), hother.index_eq_false (by omega)]
  ext1
  · exact phaseResidue_phaseValue rhs.xzPhaseExp
  · exact hbits hp.1 hrhs.1
  · exact hbits hp.2 hrhs.2

end PauliUnitary

namespace CliffordUnitary

theorem phaseValue_eq_zero_iff {e : UInt8} :
    PauliUnitary.phaseValue e = 0 ↔ PauliUnitary.phaseResidue e = 0 :=
  PauliUnitary.phaseResidue_eq_zero_iff.symm

theorem isPauliX_iff {p : PauliUnitary} {q : ℕ} : p.isPauliX q = true ↔ p.toPhased = X q := by
  simp only [PauliUnitary.isPauliX, Bool.and_eq_true, beq_iff_eq, phaseValue_eq_zero_iff]
  constructor
  · rintro ⟨⟨hx, hz⟩, hphase⟩
    ext1
    · exact hphase
    · exact hx
    · exact hz
  · intro h
    exact ⟨⟨congrArg PhasedPauli.xBits h, congrArg PhasedPauli.zBits h⟩,
      congrArg PhasedPauli.phase h⟩

theorem isPauliZ_iff {p : PauliUnitary} {q : ℕ} : p.isPauliZ q = true ↔ p.toPhased = Z q := by
  simp only [PauliUnitary.isPauliZ, Bool.and_eq_true, beq_iff_eq, phaseValue_eq_zero_iff]
  constructor
  · rintro ⟨⟨hx, hz⟩, hphase⟩
    ext1
    · exact hphase
    · exact hx
    · exact hz
  · intro h
    exact ⟨⟨congrArg PhasedPauli.xBits h, congrArg PhasedPauli.zBits h⟩,
      congrArg PhasedPauli.phase h⟩

/-- The tensor product with the identity on some more qubits. -/
def cliffordTensoredWithIdentity (left : CliffordUnitary) (identityQubitCount : ℕ) :
    CliffordUnitary :=
  let lhsNumQubits := left.numQubits
  (identity (lhsNumQubits + identityQubitCount)).rewritePreimages
    (fun qubitId p => p.assignWithOffset (left.preimageXView qubitId) 0 lhsNumQubits)
    (fun qubitId p => p.assignWithOffset (left.preimageZView qubitId) 0 lhsNumQubits)
    (List.range lhsNumQubits)

/-- Drop qubits on which the tableau acts trivially; `none` is a failed assertion. -/
def shrinkClifford (value : CliffordUnitary) (newQubitCount : ℕ) : Option CliffordUnitary :=
  if (List.range' newQubitCount (value.numQubits - newQubitCount)).all fun qubitIndex =>
      (value.preimageXView qubitIndex).isPauliX qubitIndex &&
        (value.preimageZView qubitIndex).isPauliZ qubitIndex then
    some ((identity newQubitCount).rewritePreimages
      (fun qubitIndex _ => (value.preimageXView qubitIndex).assigned)
      (fun qubitIndex _ => (value.preimageZView qubitIndex).assigned)
      (List.range newQubitCount))
  else none

/-- Change the number of qubits. -/
def resize (C : CliffordUnitary) (newQubitCount : ℕ) : Option CliffordUnitary :=
  match compare C.numQubits newQubitCount with
  | .eq => some C
  | .lt => some (C.cliffordTensoredWithIdentity (newQubitCount - C.numQubits))
  | .gt => C.shrinkClifford newQubitCount

@[simp]
theorem numQubits_cliffordTensoredWithIdentity (C : CliffordUnitary) (k : ℕ) :
    (C.cliffordTensoredWithIdentity k).numQubits = C.numQubits + k := by
  unfold cliffordTensoredWithIdentity
  rw [numQubits_rewritePreimages, numQubits_identity]

theorem frame_cliffordTensoredWithIdentity {C : CliffordUnitary} (hf : C.frame.Valid) (k : ℕ) :
    (C.cliffordTensoredWithIdentity k).frame = C.frame := by
  have hpad := paddingClear_of_frame hf
  have hviews := fun i (hi : i < C.numQubits + k) =>
    views_rewritePreimages (C := identity (C.numQubits + k))
      (fun qubitId p => p.assignWithOffset (C.preimageXView qubitId) 0 C.numQubits)
      (fun qubitId p => p.assignWithOffset (C.preimageZView qubitId) 0 C.numQubits)
      (List.nodup_range : (List.range C.numQubits).Nodup)
      (fun q hq => by
        rw [numQubits_identity]
        exact Nat.lt_add_right k (List.mem_range.mp hq))
      (j := i) (by rwa [numQubits_identity])
  have hn := numQubits_cliffordTensoredWithIdentity C k
  refine GeneratorFrame.ext (funext fun i => ?_) (funext fun i => ?_)
  · rcases Nat.lt_or_ge i (C.numQubits + k) with hi | hi
    · obtain ⟨hx, hz⟩ := views_identity hi
      rw [frame_x (by omega), cliffordTensoredWithIdentity, (hviews i hi).1, hx]
      simp only [List.mem_range]
      split_ifs with hlt
      · have hbelow : (PauliUnitary.x i).Below C.numQubits := below_X.mpr hlt
        rw [PauliUnitary.toPhased_assignWithOffset_below hbelow (hpad i hlt).1, frame_x hlt]
      · rw [frame_x_of_le (by omega)]
        rfl
    · rw [frame_x_of_le (by omega), frame_x_of_le (by omega)]
  · rcases Nat.lt_or_ge i (C.numQubits + k) with hi | hi
    · obtain ⟨hx, hz⟩ := views_identity hi
      rw [frame_z (by omega), cliffordTensoredWithIdentity, (hviews i hi).2, hz]
      simp only [List.mem_range]
      split_ifs with hlt
      · have hbelow : (PauliUnitary.z i).Below C.numQubits := below_Z.mpr hlt
        rw [PauliUnitary.toPhased_assignWithOffset_below hbelow (hpad i hlt).2, frame_z hlt]
      · rw [frame_z_of_le (by omega)]
        rfl
    · rw [frame_z_of_le (by omega), frame_z_of_le (by omega)]

theorem resize_of_lt {C : CliffordUnitary} (hf : C.frame.Valid) {newQubitCount : ℕ}
    (h : C.numQubits < newQubitCount) :
    ∃ C', C.resize newQubitCount = some C' ∧ C'.numQubits = newQubitCount ∧ C'.frame = C.frame := by
  refine ⟨C.cliffordTensoredWithIdentity (newQubitCount - C.numQubits), ?_, ?_,
    frame_cliffordTensoredWithIdentity hf _⟩
  · rw [resize, Nat.compare_eq_lt.mpr h]
  · rw [numQubits_cliffordTensoredWithIdentity]
    omega

end CliffordUnitary

end QdkEc
