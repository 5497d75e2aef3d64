import QdkEc.Lib.PauliVector
import QdkEc.Paulimer.CliffordMultiQubit

/-!
# The symplectic action of a Clifford unitary

A valid tableau acts on Paulis modulo phases by a linear isometry, read from its
images, and its preimages give the inverse.  A Pauli exponential multiplies the
action by a transvection.
-/

namespace QdkEc

open PhasedPauli PauliVector

namespace CliffordUnitary

@[simp]
theorem numQubits_leftMulPauliExp (C : CliffordUnitary) (pauli : PauliUnitary) :
    (C.leftMulPauliExp pauli).numQubits = C.numQubits := by
  unfold leftMulPauliExp
  split_ifs
  · exact numQubits_updatePreimages C _ pauli
  · rfl

theorem ValidOn.leftMulPauliExp {n : ℕ} {C : CliffordUnitary} (hC : C.ValidOn n)
    {pauli : PauliUnitary} (hp : pauli.Below n) (htwo : pauli.toPhased.OrderTwo) :
    (C.leftMulPauliExp pauli).ValidOn n := by
  have hbelow : pauli.Below C.numQubits := by
    rw [hC.numQubits_eq]
    exact hp
  refine validOn_iff_frame.mpr ⟨?_, (follows_leftMulPauliExp hC.frame hbelow htwo).valid⟩
  rw [numQubits_leftMulPauliExp, hC.numQubits_eq]

section Action

variable {C : CliffordUnitary} (hf : C.frame.Valid)

/-- The action of a tableau on Paulis modulo phases. -/
noncomputable def imageAction : PauliVector →ₗ[ZMod 2] PauliVector :=
  action (hf.inverseHom C.fixesFrom_frame) (hf.inverseHom_iPow C.fixesFrom_frame)

/-- The inverse of the action of a tableau on Paulis modulo phases. -/
def preimageAction : PauliVector →ₗ[ZMod 2] PauliVector :=
  action hf.liftHom hf.liftHom_iPow

theorem isometry_imageAction : Transvection.Isometry form (imageAction hf) :=
  isometry_action _ _

theorem imageAction_lift (p : PhasedPauli) : imageAction hf (C.frame.lift p).vector = p.vector := by
  unfold imageAction
  rw [action_vector, hf.inverseHom_lift]

theorem preimageAction_vector (p : PhasedPauli) :
    preimageAction hf p.vector = (C.frame.lift p).vector := by
  unfold preimageAction
  rfl

theorem imageAction_preimageAction (v : PauliVector) : imageAction hf (preimageAction hf v) = v :=
  imageAction_lift hf v.operator

theorem preimageAction_imageAction (v : PauliVector) :
    preimageAction hf (imageAction hf v) = v := by
  have hlift := hf.lift_inverseHom C.fixesFrom_frame v.operator
  unfold imageAction
  rw [action_apply, preimageAction_vector, hlift, vector_operator]

theorem imageAction_eq_image {p : PauliUnitary} (hp : p.Below C.numQubits) :
    imageAction hf p.toPhased.vector = (C.image p).toPhased.vector := by
  rw [← imageAction_lift hf (C.image p).toPhased, lift_image hf hp]

theorem fixesFrom_imageAction : FixesFrom C.numQubits (imageAction hf) := by
  intro i hi
  have hx := imageAction_lift hf (X i)
  have hz := imageAction_lift hf (Z i)
  rw [GeneratorFrame.lift_X, frame_x_of_le hi] at hx
  rw [GeneratorFrame.lift_Z, frame_z_of_le hi] at hz
  exact ⟨hx, hz⟩

theorem imageAction_leftMulPauliExp {pauli : PauliUnitary} (hp : pauli.Below C.numQubits)
    (htwo : pauli.toPhased.OrderTwo) (hf' : (C.leftMulPauliExp pauli).frame.Valid) :
    imageAction hf' = Transvection.along form pauli.toPhased.vector ∘ₗ imageAction hf := by
  refine LinearMap.ext fun v => ?_
  have hfollows := follows_leftMulPauliExp hf hp htwo
  obtain ⟨p, hlift⟩ := hf.lift_surjective C.fixesFrom_frame v.operator
  have hv : v = (C.frame.lift p).vector := by rw [hlift, vector_operator]
  calc
    imageAction hf' v = imageAction hf'
        ((C.leftMulPauliExp pauli).frame.lift (pauliExp pauli.toPhased p)).vector := by
      rw [hfollows.lift_map, ← hv]
    _ = (pauliExp pauli.toPhased p).vector := imageAction_lift hf' _
    _ = Transvection.along form pauli.toPhased.vector (imageAction hf v) := by
      rw [vector_pauliExp, hv, imageAction_lift hf]

end Action

theorem vector_lift_eq_of_imageAction_eq {C D : CliffordUnitary} (hC : C.frame.Valid)
    (hD : D.frame.Valid) (h : imageAction hC = imageAction hD) (p : PhasedPauli) :
    (C.frame.lift p).vector = (D.frame.lift p).vector := by
  calc
    (C.frame.lift p).vector = preimageAction hC p.vector := (preimageAction_vector hC p).symm
    _ = preimageAction hC (imageAction hC (preimageAction hD p.vector)) := by
      rw [h, imageAction_preimageAction]
    _ = preimageAction hD p.vector := preimageAction_imageAction hC _
    _ = (D.frame.lift p).vector := preimageAction_vector hD p

end CliffordUnitary

end QdkEc
