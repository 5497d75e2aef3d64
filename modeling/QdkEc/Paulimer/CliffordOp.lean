import QdkEc.Paulimer.CliffordMultiQubit

/-!
# Runs of Clifford operations

This module collects the mutating operations of `CliffordUnitary` in one type,
gives each of them its conjugation on Paulis, and proves that a run of
operations keeps the tableau valid and conjugates images as specified.
-/

namespace QdkEc

open PhasedPauli CliffordUnitary Option

/-- The named unitary gates. -/
inductive UnitaryOp where
  | I
  | X
  | Y
  | Z
  | SqrtX
  | SqrtXInv
  | SqrtY
  | SqrtYInv
  | SqrtZ
  | SqrtZInv
  | Hadamard
  | Swap
  | ControlledX
  | ControlledZ
  | PrepareBell
deriving DecidableEq

/-- Left multiplication by a named gate; `none` is a failed assertion on the support. -/
def CliffordUnitary.leftMul (C : CliffordUnitary) (unitaryOp : UnitaryOp) (support : List ℕ) :
    Option CliffordUnitary :=
  match unitaryOp, support with
  | .I, _ => some C
  | .X, [q] => some (C.leftMulX q)
  | .Y, [q] => some (C.leftMulY q)
  | .Z, [q] => some (C.leftMulZ q)
  | .SqrtX, [q] => some (C.leftMulRootX q)
  | .SqrtXInv, [q] => some (C.leftMulRootXInverse q)
  | .SqrtY, [q] => some (C.leftMulRootY q)
  | .SqrtYInv, [q] => some (C.leftMulRootYInverse q)
  | .SqrtZ, [q] => some (C.leftMulRootZ q)
  | .SqrtZInv, [q] => some (C.leftMulRootZInverse q)
  | .Hadamard, [q] => some (C.leftMulHadamard q)
  | .Swap, [q, r] => if q ≠ r then some (C.leftMulSwap q r) else none
  | .ControlledX, [q, r] => if q ≠ r then some (C.leftMulCx q r) else none
  | .ControlledZ, [q, r] => if q ≠ r then some (C.leftMulCz q r) else none
  | .PrepareBell, [q, r] => if q ≠ r then some (C.leftMulPrepareBell q r) else none
  | _, _ => none

variable {φ : PhasedPauli → PhasedPauli}

namespace GeneratorFrame

/-- The frame that moves the generators of one qubit. -/
def onQubit (q : ℕ) (imageX imageZ : PhasedPauli) : GeneratorFrame where
  x i := if i = q then imageX else X i
  z i := if i = q then imageZ else Z i

/-- The frame that moves the generators of two qubits. -/
def onQubits (q : ℕ) (imageX imageZ : PhasedPauli) (r : ℕ) (imageX' imageZ' : PhasedPauli) :
    GeneratorFrame where
  x i := if i = q then imageX else if i = r then imageX' else X i
  z i := if i = q then imageZ else if i = r then imageZ' else Z i

theorem Follows.of_images {f f' g : GeneratorFrame} (hf : f.Valid)
    (h : f'.Follows f φ) (hx : ∀ i, g.x i = φ (X i)) (hz : ∀ i, g.z i = φ (Z i)) :
    f'.Follows f g.lift := by
  let hom : PhasedPauli →* PhasedPauli :=
    { toFun := φ
      map_one' := h.map_iPow 0
      map_mul' := h.map_mul hf }
  have hg : g = ofMap hom := GeneratorFrame.ext (funext hx) (funext hz)
  refine h.congr ?_
  intro p
  rw [hg]
  exact lift_ofMap (φ := hom) h.map_iPow p

end GeneratorFrame

namespace UnitaryOp

/-- The images of the generators under conjugation by a named gate. -/
def images : UnitaryOp → List ℕ → GeneratorFrame
  | .X, [q] => .onQubit q (PhasedPauli.X q) (iPow 2 * PhasedPauli.Z q)
  | .Y, [q] => .onQubit q (iPow 2 * PhasedPauli.X q) (iPow 2 * PhasedPauli.Z q)
  | .Z, [q] => .onQubit q (iPow 2 * PhasedPauli.X q) (PhasedPauli.Z q)
  | .SqrtX, [q] => .onQubit q (PhasedPauli.X q) (iPow 3 * (PhasedPauli.X q * PhasedPauli.Z q))
  | .SqrtXInv, [q] => .onQubit q (PhasedPauli.X q) (iPow 1 * (PhasedPauli.X q * PhasedPauli.Z q))
  | .SqrtY, [q] => .onQubit q (iPow 2 * PhasedPauli.Z q) (PhasedPauli.X q)
  | .SqrtYInv, [q] => .onQubit q (PhasedPauli.Z q) (iPow 2 * PhasedPauli.X q)
  | .SqrtZ, [q] => .onQubit q (iPow 1 * (PhasedPauli.X q * PhasedPauli.Z q)) (PhasedPauli.Z q)
  | .SqrtZInv, [q] => .onQubit q (iPow 3 * (PhasedPauli.X q * PhasedPauli.Z q)) (PhasedPauli.Z q)
  | .Hadamard, [q] => .onQubit q (PhasedPauli.Z q) (PhasedPauli.X q)
  | .Swap, [q, r] =>
    .onQubits q (PhasedPauli.X r) (PhasedPauli.Z r) r (PhasedPauli.X q) (PhasedPauli.Z q)
  | .ControlledX, [q, r] =>
    .onQubits q (PhasedPauli.X q * PhasedPauli.X r) (PhasedPauli.Z q) r (PhasedPauli.X r)
      (PhasedPauli.Z q * PhasedPauli.Z r)
  | .ControlledZ, [q, r] =>
    .onQubits q (PhasedPauli.X q * PhasedPauli.Z r) (PhasedPauli.Z q) r
      (PhasedPauli.Z q * PhasedPauli.X r) (PhasedPauli.Z r)
  | .PrepareBell, [q, r] =>
    .onQubits q (PhasedPauli.Z q) (PhasedPauli.X q * PhasedPauli.X r) r (PhasedPauli.X r)
      (PhasedPauli.Z q * PhasedPauli.Z r)
  | _, _ => .identity

/-- The support fits the gate and its qubits are distinct and in range. -/
def WellFormed (n : ℕ) (unitaryOp : UnitaryOp) (support : List ℕ) : Prop :=
  unitaryOp = .I ∨
    support.length =
        (if unitaryOp ∈ [.Swap, .ControlledX, .ControlledZ, .PrepareBell] then 2 else 1) ∧
      support.Nodup ∧ ∀ q ∈ support, q < n

end UnitaryOp

namespace CliffordUnitary

section NamedGates

variable {C : CliffordUnitary} (hf : C.frame.Valid)

theorem follows_onQubit {f f' : GeneratorFrame} {q : ℕ}
    {a b : PhasedPauli} (hf : f.Valid) (h : f'.Follows f φ) (hx : φ (X q) = a) (hz : φ (Z q) = b)
    (hfix : ∀ i, i ≠ q → φ (X i) = X i ∧ φ (Z i) = Z i) :
    f'.Follows f (GeneratorFrame.onQubit q a b).lift := by
  refine h.of_images hf ?_ ?_
  · intro i
    by_cases hi : i = q
    · subst hi
      simp [GeneratorFrame.onQubit, hx]
    · simp [GeneratorFrame.onQubit, hi, (hfix i hi).1]
  · intro i
    by_cases hi : i = q
    · subst hi
      simp [GeneratorFrame.onQubit, hz]
    · simp [GeneratorFrame.onQubit, hi, (hfix i hi).2]

theorem follows_onQubits {f f' : GeneratorFrame} {q r : ℕ}
    {a b c d : PhasedPauli} (hf : f.Valid) (h : f'.Follows f φ) (hqr : q ≠ r) (hxq : φ (X q) = a)
    (hzq : φ (Z q) = b) (hxr : φ (X r) = c) (hzr : φ (Z r) = d)
    (hfix : ∀ i, i ≠ q → i ≠ r → φ (X i) = X i ∧ φ (Z i) = Z i) :
    f'.Follows f (GeneratorFrame.onQubits q a b r c d).lift := by
  refine h.of_images hf ?_ ?_
  · intro i
    by_cases hi : i = q
    · subst hi
      simp [GeneratorFrame.onQubits, hxq]
    · by_cases hi' : i = r
      · subst hi'
        simp [GeneratorFrame.onQubits, hqr.symm, hxr]
      · simp [GeneratorFrame.onQubits, hi, hi', (hfix i hi hi').1]
  · intro i
    by_cases hi : i = q
    · subst hi
      simp [GeneratorFrame.onQubits, hzq]
    · by_cases hi' : i = r
      · subst hi'
        simp [GeneratorFrame.onQubits, hqr.symm, hzr]
      · simp [GeneratorFrame.onQubits, hi, hi', (hfix i hi hi').2]

theorem pauliExp_fixes {p : PhasedPauli} {q : ℕ}
    (hp : ∀ i, i ≠ q → p.xBits.index i = false ∧ p.zBits.index i = false) (i : ℕ) (hi : i ≠ q) :
    pauliExp p (X i) = X i ∧ pauliExp p (Z i) = Z i := by
  obtain ⟨hx, hz⟩ := hp i hi
  exact ⟨pauliExp_of_not_anti (by simpa using hz), pauliExp_of_not_anti (by simpa using hx)⟩

theorem conjugate_fixes {p : PhasedPauli} {q : ℕ}
    (hp : ∀ i, i ≠ q → p.xBits.index i = false ∧ p.zBits.index i = false) (i : ℕ) (hi : i ≠ q) :
    conjugate p (X i) = X i ∧ conjugate p (Z i) = Z i := by
  obtain ⟨hx, hz⟩ := hp i hi
  rw [conjugate_apply, conjugate_apply, anti_X_right, anti_Z_right, hx, hz]
  simp

theorem hadamard_lift_fixes (q i : ℕ) (hi : i ≠ q) :
    (GeneratorFrame.identity.hadamard q).lift (X i) = X i ∧
      (GeneratorFrame.identity.hadamard q).lift (Z i) = Z i := by
  simp [GeneratorFrame.hadamard, GeneratorFrame.identity, hi]

theorem hadamard_lift_X (q : ℕ) : (GeneratorFrame.identity.hadamard q).lift (X q) = Z q := by
  simp [GeneratorFrame.hadamard, GeneratorFrame.identity]

theorem hadamard_lift_Z (q : ℕ) : (GeneratorFrame.identity.hadamard q).lift (Z q) = X q := by
  simp [GeneratorFrame.hadamard, GeneratorFrame.identity]

theorem index_unit_of_ne {q i : ℕ} (hi : i ≠ q) : (Bits.unit q).index i = false := by
  simpa using hi.symm

theorem four_eq_zero : (2 : ZMod 4) + 2 = 0 := by
  decide

theorem pauliExp_neg_Z_X (q : ℕ) : pauliExp (iPow 2 * Z q) (X q) = iPow 1 * (X q * Z q) := by
  rw [pauliExp_of_anti (by simp)]
  ext1
  · simp [four_eq_zero]
  · simp
  · simp

theorem pauliExp_Z_X (q : ℕ) : pauliExp (Z q) (X q) = iPow 3 * (X q * Z q) := by
  rw [pauliExp_of_anti (by simp)]
  ext1
  · simp
    decide
  · simp
  · simp

theorem pauliExp_neg_X_Z (q : ℕ) : pauliExp (iPow 2 * X q) (Z q) = iPow 3 * (X q * Z q) := by
  rw [pauliExp_of_anti (by simp)]
  ext1
  · simp
    decide
  · simp
  · simp

theorem pauliExp_X_Z (q : ℕ) : pauliExp (X q) (Z q) = iPow 1 * (X q * Z q) := by
  rw [pauliExp_of_anti (by simp)]

include hf

section OneQubit

variable {q : ℕ} (hq : q < C.numQubits)

include hq

theorem follows_images_X : (C.leftMulX q).frame.Follows C.frame (UnitaryOp.images .X [q]).lift :=
  follows_onQubit hf (follows_leftMulX hf hq) (by simp [conjugate_apply])
    (by simp [conjugate_apply])
    (conjugate_fixes fun i hi => ⟨index_unit_of_ne hi, Bits.index_zero i⟩)

theorem follows_images_Y : (C.leftMulY q).frame.Follows C.frame (UnitaryOp.images .Y [q]).lift :=
  follows_onQubit hf (follows_leftMulY hf hq) (by simp [conjugate_apply])
    (by simp [conjugate_apply])
    (conjugate_fixes fun i hi => by simp [Ne.symm hi])

theorem follows_images_Z : (C.leftMulZ q).frame.Follows C.frame (UnitaryOp.images .Z [q]).lift :=
  follows_onQubit hf (follows_leftMulZ hf hq) (by simp [conjugate_apply])
    (by simp [conjugate_apply])
    (conjugate_fixes fun i hi => ⟨Bits.index_zero i, index_unit_of_ne hi⟩)

theorem follows_images_SqrtX :
    (C.leftMulRootX q).frame.Follows C.frame (UnitaryOp.images .SqrtX [q]).lift :=
  follows_onQubit hf (follows_leftMulRootX hf hq) (pauliExp_of_not_anti (by simp))
    (pauliExp_neg_X_Z q) (pauliExp_fixes fun i hi => by simp [Ne.symm hi])

theorem follows_images_SqrtXInv :
    (C.leftMulRootXInverse q).frame.Follows C.frame (UnitaryOp.images .SqrtXInv [q]).lift :=
  follows_onQubit hf (follows_leftMulRootXInverse hf hq) (pauliExp_of_not_anti (by simp))
    (pauliExp_X_Z q) (pauliExp_fixes fun i hi => by simp [Ne.symm hi])

theorem follows_images_SqrtZ :
    (C.leftMulRootZ q).frame.Follows C.frame (UnitaryOp.images .SqrtZ [q]).lift :=
  follows_onQubit hf (follows_leftMulRootZ hf hq) (pauliExp_neg_Z_X q)
    (pauliExp_of_not_anti (by simp)) (pauliExp_fixes fun i hi => by simp [Ne.symm hi])

theorem follows_images_SqrtZInv :
    (C.leftMulRootZInverse q).frame.Follows C.frame (UnitaryOp.images .SqrtZInv [q]).lift :=
  follows_onQubit hf (follows_leftMulRootZInverse hf hq) (pauliExp_Z_X q)
    (pauliExp_of_not_anti (by simp)) (pauliExp_fixes fun i hi => by simp [Ne.symm hi])

theorem follows_images_Hadamard :
    (C.leftMulHadamard q).frame.Follows C.frame (UnitaryOp.images .Hadamard [q]).lift :=
  follows_onQubit hf (follows_leftMulHadamard hf hq) (hadamard_lift_X q) (hadamard_lift_Z q)
    (hadamard_lift_fixes q)

theorem follows_images_SqrtY :
    (C.leftMulRootY q).frame.Follows C.frame (UnitaryOp.images .SqrtY [q]).lift := by
  have hvalid := GeneratorFrame.valid_identity.hadamard q
  refine follows_onQubit hf (follows_leftMulRootY hf hq) ?_ ?_ ?_
  · rw [conjugate_apply, hvalid.lift_iPow_mul, hadamard_lift_X]
    simp
  · rw [conjugate_apply, hvalid.lift_iPow_mul, hadamard_lift_Z]
    simp
  · intro i hi
    obtain ⟨hx, hz⟩ := conjugate_fixes (p := Z q) (q := q)
      (fun i hi => ⟨Bits.index_zero i, index_unit_of_ne hi⟩) i hi
    rw [hx, hz]
    exact hadamard_lift_fixes q i hi

theorem follows_images_SqrtYInv :
    (C.leftMulRootYInverse q).frame.Follows C.frame (UnitaryOp.images .SqrtYInv [q]).lift := by
  refine follows_onQubit hf (follows_leftMulRootYInverse hf hq) ?_ ?_ ?_
  · rw [hadamard_lift_X, conjugate_apply]
    simp
  · rw [hadamard_lift_Z, conjugate_apply]
    simp
  · intro i hi
    obtain ⟨hx, hz⟩ := hadamard_lift_fixes q i hi
    rw [hx, hz]
    exact conjugate_fixes (fun i hi => ⟨Bits.index_zero i, index_unit_of_ne hi⟩) i hi

end OneQubit

section TwoQubits

variable {q r : ℕ} (hq : q < C.numQubits) (hr : r < C.numQubits) (hqr : q ≠ r)

include hq hr hqr

theorem follows_images_Swap :
    (C.leftMulSwap q r).frame.Follows C.frame (UnitaryOp.images .Swap [q, r]).lift := by
  refine follows_onQubits hf (follows_leftMulSwap hf hq hr) hqr ?_ ?_ ?_ ?_ ?_
  · simp [GeneratorFrame.relabel, GeneratorFrame.identity]
  · simp [GeneratorFrame.relabel, GeneratorFrame.identity]
  · simp [GeneratorFrame.relabel, GeneratorFrame.identity]
  · simp [GeneratorFrame.relabel, GeneratorFrame.identity]
  · intro i hiq hir
    simp [GeneratorFrame.relabel, GeneratorFrame.identity, Equiv.swap_apply_of_ne_of_ne hiq hir]

theorem follows_images_ControlledX :
    (C.leftMulCx q r).frame.Follows C.frame (UnitaryOp.images .ControlledX [q, r]).lift := by
  refine follows_onQubits hf (follows_leftMulCx hf hq hr hqr) hqr ?_ ?_ ?_ ?_ ?_
  · simp [controlledPauli]
  · simp [controlledPauli, hqr.symm]
  · simp [controlledPauli, hqr]
  · have hcomm : Z r * Z q = Z q * Z r := mul_comm_of_not_anti (by simp)
    simp [controlledPauli, hcomm]
  · intro i hiq hir
    simp [controlledPauli, Ne.symm hiq, Ne.symm hir]

theorem follows_images_ControlledZ :
    (C.leftMulCz q r).frame.Follows C.frame (UnitaryOp.images .ControlledZ [q, r]).lift := by
  refine follows_onQubits hf (follows_leftMulCz hf hq hr hqr) hqr ?_ ?_ ?_ ?_ ?_
  · simp [controlledPauli, hqr.symm]
  · simp [controlledPauli]
  · have hcomm : X r * Z q = Z q * X r := mul_comm_of_not_anti (by simp [hqr.symm])
    simp [controlledPauli, hqr, hcomm]
  · simp [controlledPauli]
  · intro i hiq hir
    simp [controlledPauli, Ne.symm hiq, Ne.symm hir]

theorem follows_images_PrepareBell : (C.leftMulPrepareBell q r).frame.Follows C.frame
      (UnitaryOp.images .PrepareBell [q, r]).lift := by
  obtain ⟨hxr, hzr⟩ := hadamard_lift_fixes q r hqr.symm
  refine follows_onQubits hf (follows_leftMulPrepareBell hf hq hr hqr) hqr ?_ ?_ ?_ ?_ ?_
  · rw [hadamard_lift_X]
    simp [controlledPauli, hqr.symm]
  · rw [hadamard_lift_Z]
    simp [controlledPauli]
  · rw [hxr]
    simp [controlledPauli, hqr]
  · have hcomm : Z r * Z q = Z q * Z r := mul_comm_of_not_anti (by simp)
    rw [hzr]
    simp [controlledPauli, hcomm]
  · intro i hiq hir
    obtain ⟨hx, hz⟩ := hadamard_lift_fixes q i hiq
    rw [hx, hz]
    simp [controlledPauli, Ne.symm hiq, Ne.symm hir]

end TwoQubits

theorem follows_leftMul {C' : CliffordUnitary} {unitaryOp : UnitaryOp} {support : List ℕ}
    (hlt : unitaryOp = .I ∨ ∀ q ∈ support, q < C.numQubits)
    (h : C.leftMul unitaryOp support = some C') :
    C'.frame.Follows C.frame (unitaryOp.images support).lift := by
  rcases hlt with rfl | hlt
  · obtain rfl : C = C' := by simpa [leftMul] using h
    exact (GeneratorFrame.Follows.refl hf).congr GeneratorFrame.lift_identity
  · unfold leftMul at h
    split at h
    · obtain rfl := some_inj.mp h
      exact (GeneratorFrame.Follows.refl hf).congr GeneratorFrame.lift_identity
    · obtain rfl := some_inj.mp h
      exact follows_images_X hf (hlt _ (by simp))
    · obtain rfl := some_inj.mp h
      exact follows_images_Y hf (hlt _ (by simp))
    · obtain rfl := some_inj.mp h
      exact follows_images_Z hf (hlt _ (by simp))
    · obtain rfl := some_inj.mp h
      exact follows_images_SqrtX hf (hlt _ (by simp))
    · obtain rfl := some_inj.mp h
      exact follows_images_SqrtXInv hf (hlt _ (by simp))
    · obtain rfl := some_inj.mp h
      exact follows_images_SqrtY hf (hlt _ (by simp))
    · obtain rfl := some_inj.mp h
      exact follows_images_SqrtYInv hf (hlt _ (by simp))
    · obtain rfl := some_inj.mp h
      exact follows_images_SqrtZ hf (hlt _ (by simp))
    · obtain rfl := some_inj.mp h
      exact follows_images_SqrtZInv hf (hlt _ (by simp))
    · obtain rfl := some_inj.mp h
      exact follows_images_Hadamard hf (hlt _ (by simp))
    · obtain ⟨hqr, h⟩ := ite_none_right_eq_some.mp h
      obtain rfl := some_inj.mp h
      exact follows_images_Swap hf (hlt _ (by simp)) (hlt _ (by simp)) hqr
    · obtain ⟨hqr, h⟩ := ite_none_right_eq_some.mp h
      obtain rfl := some_inj.mp h
      exact follows_images_ControlledX hf (hlt _ (by simp)) (hlt _ (by simp)) hqr
    · obtain ⟨hqr, h⟩ := ite_none_right_eq_some.mp h
      obtain rfl := some_inj.mp h
      exact follows_images_ControlledZ hf (hlt _ (by simp)) (hlt _ (by simp)) hqr
    · obtain ⟨hqr, h⟩ := ite_none_right_eq_some.mp h
      obtain rfl := some_inj.mp h
      exact follows_images_PrepareBell hf (hlt _ (by simp)) (hlt _ (by simp)) hqr
    · contradiction

end NamedGates

end CliffordUnitary

/-- The mutating operations of a Clifford unitary. -/
inductive CliffordOp where
  | leftMul (unitaryOp : UnitaryOp) (support : List ℕ)
  | leftMulPauli (pauli : PauliUnitary)
  | leftMulPauliExp (pauli : PauliUnitary)
  | leftMulControlledPauli (control target : PauliUnitary)
  | leftMulPermutation (permutation support : List ℕ)
  | leftMulClifford (clifford : CliffordUnitary) (support : List ℕ)

namespace CliffordOp

/-- Perform one operation; `none` is a failed assertion. -/
def apply : CliffordOp → CliffordUnitary → Option CliffordUnitary
  | leftMul unitaryOp support, C => C.leftMul unitaryOp support
  | leftMulPauli pauli, C => some (C.leftMulPauli pauli)
  | leftMulPauliExp pauli, C => some (C.leftMulPauliExp pauli)
  | leftMulControlledPauli control target, C => some (C.leftMulControlledPauli control target)
  | leftMulPermutation permutation support, C => C.leftMulPermutation permutation support
  | leftMulClifford clifford support, C => C.leftMulClifford clifford support

/-- The arguments of the operation meet its preconditions on `n` qubits. -/
def WellFormed (n : ℕ) : CliffordOp → Prop
  | leftMul unitaryOp support => unitaryOp.WellFormed n support
  | leftMulPauli pauli => pauli.Below n
  | leftMulPauliExp pauli => pauli.Below n ∧ pauli.isOrderTwo = true
  | leftMulControlledPauli control target =>
    (control.Below n ∧ control.isOrderTwo = true) ∧
      (target.Below n ∧ target.isOrderTwo = true) ∧ control.commutesWith target = true
  | leftMulPermutation permutation support =>
    permutation.Perm (List.range permutation.length) ∧ support.Nodup ∧
      permutation.length = support.length ∧ ∀ q ∈ support, q < n
  | leftMulClifford clifford support =>
    clifford.ValidOn support.length ∧ support.Nodup ∧ ∀ q ∈ support, q < n

instance (n : ℕ) (unitaryOp : UnitaryOp) (support : List ℕ) :
    Decidable (unitaryOp.WellFormed n support) :=
  inferInstanceAs (Decidable (_ ∨ _))

instance (n : ℕ) (op : CliffordOp) : Decidable (op.WellFormed n) :=
  match op with
  | leftMul unitaryOp support => inferInstanceAs (Decidable (unitaryOp.WellFormed n support))
  | leftMulPauli pauli => inferInstanceAs (Decidable (pauli.Below n))
  | leftMulPauliExp _ => inferInstanceAs (Decidable (_ ∧ _))
  | leftMulControlledPauli _ _ => inferInstanceAs (Decidable (_ ∧ _ ∧ _))
  | leftMulPermutation _ _ => inferInstanceAs (Decidable (_ ∧ _ ∧ _ ∧ _))
  | leftMulClifford _ _ => inferInstanceAs (Decidable (_ ∧ _ ∧ _))

/-- The qubit to which a permutation of a support moves a qubit. -/
def permutationTarget (permutation support : List ℕ) (j : ℕ) : ℕ :=
  if j ∈ support then support.getD (permutation.idxOf (support.idxOf j)) 0 else j

/-- The conjugation by the unitary of an operation. -/
def conjugation : CliffordOp → PhasedPauli → PhasedPauli
  | leftMul unitaryOp support => (unitaryOp.images support).lift
  | leftMulPauli pauli => conjugate pauli.toPhased
  | leftMulPauliExp pauli => pauliExp pauli.toPhased
  | leftMulControlledPauli control target => controlledPauli control.toPhased target.toPhased
  | leftMulPermutation permutation support =>
    (GeneratorFrame.identity.relabel (permutationTarget permutation support)).lift
  | leftMulClifford clifford support => (GeneratorFrame.onSupport support clifford.imageFrame).lift

theorem permutationTarget_permutationSource {permutation support : List ℕ}
    (hperm : permutation.Perm (List.range permutation.length)) (hnodup : support.Nodup)
    (hlen : permutation.length = support.length) (j : ℕ) : permutationTarget permutation support
      (permutationSource permutation support j) = j := by
  by_cases hj : j ∈ support
  · obtain ⟨e, he, hej, hsource⟩ := permutationSource_of_mem hperm hlen hj
    have hidx : support.idxOf j < support.length := List.idxOf_lt_length_of_mem hj
    have hidx' : support.idxOf j < permutation.length := by omega
    have hpermNodup : permutation.Nodup := hperm.nodup_iff.mpr List.nodup_range
    rw [List.getD_eq_getElem _ _ hidx'] at hej
    rw [hsource, permutationTarget, if_pos (List.getElem_mem he),
      List.Nodup.idxOf_getElem hnodup, ← hej, List.Nodup.idxOf_getElem hpermNodup,
      List.getD_eq_getElem _ _ hidx, List.getElem_idxOf]
  · rw [permutationSource, if_neg hj, permutationTarget, if_neg hj]

theorem symm_permutationSourceEquiv {permutation support : List ℕ}
    (hperm : permutation.Perm (List.range permutation.length)) (hnodup : support.Nodup)
    (hlen : permutation.length = support.length) :
    ((permutationSourceEquiv hperm hnodup hlen).symm : ℕ → ℕ) =
      permutationTarget permutation support := by
  funext j
  obtain ⟨i, rfl⟩ := (permutationSourceEquiv hperm hnodup hlen).surjective j
  rw [Equiv.symm_apply_apply]
  exact (permutationTarget_permutationSource hperm hnodup hlen i).symm

variable {op : CliffordOp} {n : ℕ}

theorem exists_apply_eq_some (hop : op.WellFormed n) (C : CliffordUnitary) :
    ∃ C', op.apply C = some C' := by
  cases op with
  | leftMul unitaryOp support =>
    rcases hop with rfl | ⟨hlen, hnodup, _⟩
    · exact ⟨C, by simp [apply, CliffordUnitary.leftMul]⟩
    · cases unitaryOp
      case I => exact ⟨C, by simp [apply, CliffordUnitary.leftMul]⟩
      case Swap | ControlledX | ControlledZ | PrepareBell =>
        obtain ⟨q, r, rfl⟩ := List.length_eq_two.mp (by simpa using hlen)
        have hqr : q ≠ r := by simpa using hnodup
        simp [apply, CliffordUnitary.leftMul, hqr]
      all_goals
        obtain ⟨q, rfl⟩ := List.length_eq_one_iff.mp (by simpa using hlen)
        simp [apply, CliffordUnitary.leftMul]
  | leftMulPauli pauli => exact ⟨_, rfl⟩
  | leftMulPauliExp pauli => exact ⟨_, rfl⟩
  | leftMulControlledPauli control target => exact ⟨_, rfl⟩
  | leftMulPermutation permutation support =>
    obtain ⟨hperm, hnodup, hlen, _⟩ := hop
    exact ⟨_, leftMulPermutation_eq_some_iff.mpr ⟨hperm, hnodup, hlen, rfl⟩⟩
  | leftMulClifford clifford support =>
    obtain ⟨hclifford, hnodup, _⟩ := hop
    exact ⟨_, leftMulClifford_eq_some_iff.mpr
      ⟨hclifford.numQubits_eq.symm, hnodup, rfl⟩⟩

variable {C C' : CliffordUnitary}

theorem follows_apply (hC : C.ValidOn n) (hop : op.WellFormed n) (happly : op.apply C = some C') :
    C'.frame.Follows C.frame op.conjugation := by
  have hf := hC.frame
  obtain ⟨rfl, _, _⟩ := hC
  cases op with
  | leftMul unitaryOp support =>
    refine follows_leftMul hf ?_ happly
    rcases hop with hI | ⟨_, _, hlt⟩
    · exact Or.inl hI
    · exact Or.inr hlt
  | leftMulPauli pauli =>
    obtain rfl := some_inj.mp happly
    exact follows_leftMulPauli hf hop
  | leftMulPauliExp pauli =>
    obtain rfl := some_inj.mp happly
    exact follows_leftMulPauliExp hf hop.1 (PauliUnitary.isOrderTwo_iff.mp hop.2)
  | leftMulControlledPauli control target =>
    obtain rfl := some_inj.mp happly
    obtain ⟨⟨hc, hc2⟩, ⟨ht, ht2⟩, hct⟩ := hop
    refine follows_leftMulControlledPauli hf hc ht
      (PauliUnitary.isOrderTwo_iff.mp hc2) (PauliUnitary.isOrderTwo_iff.mp ht2) ?_
    simpa [PauliUnitary.commutesWith, PauliUnitary.antiCommutesWith_eq] using hct
  | leftMulPermutation permutation support =>
    obtain ⟨hperm, hnodup, hlen, rfl⟩ :=
      leftMulPermutation_eq_some_iff.mp happly
    have h := follows_of_relabel hf
      (permutationSourceEquiv hperm hnodup hlen)
      (frame_assignPreimages_permuted hperm hnodup hlen hop.2.2.2)
    rwa [symm_permutationSourceEquiv hperm hnodup hlen] at h
  | leftMulClifford clifford support =>
    obtain ⟨hlen, hnodup, rfl⟩ := leftMulClifford_eq_some_iff.mp happly
    exact follows_assignPreimages_composed hf hop.1.frame hnodup hop.2.2 hlen

theorem numQubits_apply (happly : op.apply C = some C') : C'.numQubits = C.numQubits := by
  cases op with
  | leftMul unitaryOp support =>
    simp only [apply, CliffordUnitary.leftMul] at happly
    split at happly
    all_goals first
      | contradiction
      | (obtain rfl := some_inj.mp happly; rfl)
      | (obtain ⟨_, h⟩ := ite_none_right_eq_some.mp happly
         obtain rfl := some_inj.mp h; rfl)
  | leftMulPauli pauli =>
    obtain rfl := some_inj.mp happly
    rw [leftMulPauli_eq_updatePreimages, numQubits_updatePreimages]
  | leftMulPauliExp pauli =>
    obtain rfl := some_inj.mp happly
    simp only [CliffordUnitary.leftMulPauliExp]
    split
    · exact numQubits_updatePreimages _ _ _
    · rfl
  | leftMulControlledPauli control target =>
    obtain rfl := some_inj.mp happly
    simp only [CliffordUnitary.leftMulControlledPauli]
    split
    · rw [numQubits_updatePreimages, numQubits_updatePreimages]
    · rfl
  | leftMulPermutation permutation support =>
    obtain ⟨_, _, _, rfl⟩ := leftMulPermutation_eq_some_iff.mp happly
    exact numQubits_assignPreimages _ _ _
  | leftMulClifford clifford support =>
    obtain ⟨_, _, rfl⟩ := leftMulClifford_eq_some_iff.mp happly
    exact numQubits_assignPreimages _ _ _

theorem validOn_apply (hC : C.ValidOn n) (hop : op.WellFormed n) (happly : op.apply C = some C') :
    C'.ValidOn n := by
  rw [validOn_iff_frame, numQubits_apply happly]
  exact ⟨hC.numQubits_eq, (follows_apply hC hop happly).valid⟩

theorem toPhased_image_apply (hC : C.ValidOn n)
    (hop : op.WellFormed n) (happly : op.apply C = some C') {p : PauliUnitary} (hp : p.Below n) :
    (C'.image p).toPhased = op.conjugation (C.image p).toPhased := by
  have hC' := validOn_apply hC hop happly
  apply hC'.frame.lift_injective
  rw [lift_image hC'.frame (by rw [hC'.numQubits_eq]; exact hp),
    (follows_apply hC hop happly).lift_map,
    lift_image hC.frame (by rw [hC.numQubits_eq]; exact hp)]

/-- An operation conjugates every image by its unitary, phases included. -/
theorem image_apply {n : ℕ} {C : CliffordUnitary} {op : CliffordOp} (hC : C.ValidOn n)
    (hop : op.WellFormed n) (p : PauliUnitary) (hp : p.Below n) :
    ∃ C', op.apply C = some C' ∧ C'.ValidOn n ∧
      (C'.image p).toPhased = op.conjugation (C.image p).toPhased := by
  obtain ⟨C', happly⟩ := exists_apply_eq_some hop C
  exact ⟨C', happly, validOn_apply hC hop happly, toPhased_image_apply hC hop happly hp⟩

theorem image_apply_swap :
    (CliffordUnitary.identity 2).ValidOn 2 ∧ (leftMul .Swap [0, 1]).WellFormed 2 ∧
      ∃ C', (leftMul .Swap [0, 1]).apply (CliffordUnitary.identity 2) = some C' ∧ C'.ValidOn 2 ∧
        (C'.image (PauliUnitary.x 0)).toPhased = (leftMul .Swap [0, 1]).conjugation
          ((CliffordUnitary.identity 2).image (PauliUnitary.x 0)).toPhased :=
  ⟨validOn_identity 2, by decide,
    image_apply (validOn_identity 2) (by decide) (PauliUnitary.x 0) (by decide)⟩

theorem conjugation_mul (hop : op.WellFormed n) (p q : PhasedPauli) :
    op.conjugation (p * q) = op.conjugation p * op.conjugation q := by
  obtain ⟨C', happly⟩ := exists_apply_eq_some hop (CliffordUnitary.identity n)
  have hvalid := validOn_identity n
  exact (follows_apply hvalid hop happly).map_mul hvalid.frame p q

theorem conjugation_iPow (hop : op.WellFormed n) (k : ZMod 4) :
    op.conjugation (iPow k) = iPow k := by
  obtain ⟨C', happly⟩ := exists_apply_eq_some hop (CliffordUnitary.identity n)
  exact (follows_apply (validOn_identity n) hop happly).map_iPow k

/-- The conjugation by a well-formed operation as a homomorphism. -/
def conjugationHom {n : ℕ} {op : CliffordOp} (hop : op.WellFormed n) :
    PhasedPauli →* PhasedPauli where
  toFun := op.conjugation
  map_one' := conjugation_iPow hop 0
  map_mul' := conjugation_mul hop

/-- Perform a sequence of operations. -/
def run (ops : List CliffordOp) (C : CliffordUnitary) : Option CliffordUnitary :=
  ops.foldlM (fun C op => op.apply C) C

theorem validOn_run {ops : List CliffordOp} (hops : ∀ op ∈ ops, op.WellFormed n)
    {C : CliffordUnitary} (hC : C.ValidOn n) : ∃ C', run ops C = some C' ∧ C'.ValidOn n := by
  induction ops generalizing C with
  | nil => exact ⟨C, rfl, hC⟩
  | cons op ops ih =>
    have hop := hops op (by simp)
    obtain ⟨C', happly⟩ := exists_apply_eq_some hop C
    obtain ⟨C'', hrun, hC''⟩ := ih (fun op' hop' => hops op' (by simp [hop']))
      (validOn_apply hC hop happly)
    refine ⟨C'', ?_, hC''⟩
    simp only [run, List.foldlM_cons, happly]
    exact hrun

/-- Every run of well-formed operations from the identity passes the validity check. -/
theorem isValid_run_identity (n : ℕ) (ops : List CliffordOp) (hops : ∀ op ∈ ops, op.WellFormed n) :
    ∃ C, run ops (CliffordUnitary.identity n) = some C ∧ C.isValid = true := by
  obtain ⟨C, hrun, hC⟩ := validOn_run hops (validOn_identity n)
  exact ⟨C, hrun, hC.isValid_eq⟩

theorem isValid_run_identity_bell :
    ∃ C, run [leftMul .PrepareBell [0, 1], leftMulPauliExp ⟨⟨3⟩, ⟨1⟩, 1⟩,
        leftMulPermutation [1, 0] [0, 1], leftMulClifford (CliffordUnitary.identity 1) [1]]
          (CliffordUnitary.identity 2) = some C ∧ C.isValid = true :=
  isValid_run_identity 2 _ (by decide)

end CliffordOp

end QdkEc
