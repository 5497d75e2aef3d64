import QdkEc.Binar.WordSerialization
import QdkEc.Paulimer.CliffordGroup

/-!
# Clifford unitaries as raw words

This module models `CliffordUnitary::as_words` and `from_words` and settles for
which programs of matrix operations and which runs of gates the words of the
matrix reached, or of the tableau reached, give it back.
-/

namespace QdkEc

open Option AlignedBitMatrix

namespace CliffordUnitary

/-- The words of the tableau and its phases. -/
def asWords (C : CliffordUnitary) : List Word × List UInt8 :=
  (C.bits.asWords, C.preimagePhaseExponents)

/-- Rebuild a tableau from words and phases, whose number gives the number of qubits; `none` is a
panic or words that are not those of a tableau. -/
def fromWords (words : List Word) (phases : List UInt8) :
    Option CliffordUnitary := do
  let bits ← AlignedBitMatrix.fromWords words (phases.length / 2)
  if h : bits.rowCount = 4 * bits.columnCount ∧ phases.length = 2 * bits.columnCount then
    some ⟨bits, phases, h.1, h.2⟩
  else none

/-- The words of a tableau give back a tableau equal to it. -/
def RoundTrips (C : CliffordUnitary) : Prop :=
  ∃ restored, fromWords C.asWords.1 C.asWords.2 = some restored ∧ restored.equalsTo C = true

theorem equalsTo_of_phases_eq (C D : CliffordUnitary)
    (hphases : C.preimagePhaseExponents = D.preimagePhaseExponents) :
    C.equalsTo D = C.bits.eq D.bits := by
  have hzip : ((C.preimagePhaseExponents.zip D.preimagePhaseExponents).all fun entry =>
      PauliUnitary.rawEq entry.1 entry.2) = true := by
    rw [hphases, List.all_eq_true]
    intro entry hentry
    obtain ⟨k, hk, rfl⟩ := List.mem_iff_getElem.mp hentry
    simp [PauliUnitary.rawEq]
  rw [equalsTo, hzip, Bool.true_and]
  rfl

theorem roundTrips_iff {C : CliffordUnitary} (hstores : C.bits.StoresRows) :
    C.RoundTrips ↔ 0 < C.numQubits ∧ C.bits.StoredInOrder := by
  refine Iff.trans ?_ (AlignedBitMatrix.roundTrips_iff hstores)
  have hcolumns : C.preimagePhaseExponents.length / 2 = C.bits.columnCount := by
    rw [C.length_eq]
    omega
  unfold RoundTrips AlignedBitMatrix.RoundTrips fromWords asWords
  rw [hcolumns]
  constructor
  · rintro ⟨restored, hrestored, heq⟩
    obtain ⟨bits, hbits, hrestored⟩ := bind_eq_some_iff.mp hrestored
    split_ifs at hrestored with hshape
    obtain rfl := some_inj.mp hrestored
    have hbitsEq := equalsTo_of_phases_eq ⟨bits, _, hshape.1, hshape.2⟩ C rfl
    exact ⟨bits, hbits, hbitsEq.symm.trans heq⟩
  · rintro ⟨bits, hbits, heq⟩
    obtain ⟨hrows, hcols, _⟩ := eq_eq_true_iff.mp heq
    have hshape : bits.rowCount = 4 * bits.columnCount ∧
        C.preimagePhaseExponents.length = 2 * bits.columnCount := by
      rw [hrows, hcols]
      exact ⟨C.rowCount_eq, C.length_eq⟩
    refine ⟨⟨bits, C.preimagePhaseExponents, hshape.1, hshape.2⟩, ?_, ?_⟩
    · rw [hbits, bind_eq_bind, bind_some, dif_pos hshape]
    · exact (equalsTo_of_phases_eq ⟨bits, _, hshape.1, hshape.2⟩ C rfl).trans heq

end CliffordUnitary

namespace CliffordOp

open CliffordUnitary

/-- The operation exchanges no row pointers: it contains no Hadamard gate and no swap. -/
def KeepsPointers : CliffordOp → Prop
  | leftMul .Hadamard _ | leftMul .Swap _ | leftMul .SqrtY _ | leftMul .SqrtYInv _
  | leftMul .PrepareBell _ => False
  | _ => True

section Induction

variable {P : CliffordUnitary → Prop}
  (hsetX : ∀ C i p, P C → P (C.setPreimageX i p))
  (hsetZ : ∀ C i p, P C → P (C.setPreimageZ i p))

include hsetX hsetZ

theorem updatePreimages_induction {C : CliffordUnitary} (g : PauliUnitary → PauliUnitary)
    (pauli : PauliUnitary) (hC : P C) : P (C.updatePreimages g pauli) := by
  refine List.foldlRecOn _ _ ?_ fun C hC i _ => hsetX C i _ hC
  exact List.foldlRecOn _ _ hC fun C hC i _ => hsetZ C i _ hC

theorem assignPreimages_induction {C : CliffordUnitary} (support : List ℕ)
    (newPreimages : List (PauliUnitary × PauliUnitary)) (hC : P C) :
    P (C.assignPreimages support newPreimages) :=
  List.foldlRecOn _ _ hC fun C hC entry _ => hsetZ _ _ _ (hsetX C entry.1 _ hC)

/-- What writing preimages keeps, an operation keeps that exchanges no row pointers, and so does
every operation when the exchanges keep it too. -/
theorem apply_induction {op : CliffordOp}
    (hexchange : op.KeepsPointers ∨ ((∀ C q, P C → P (C.leftMulHadamard q)) ∧
      ∀ C q r, P C → P (C.leftMulSwap q r))) {C C' : CliffordUnitary} (hC : P C)
    (h : op.apply C = some C') : P C' := by
  have hcx : ∀ C q r, P C → P (C.leftMulCx q r) := fun C q r hC => hsetZ _ _ _ (hsetX _ _ _ hC)
  cases op with
  | leftMul unitaryOp support =>
    simp only [apply, CliffordUnitary.leftMul] at h
    split at h
    case h_1 =>
      obtain rfl := some_inj.mp h
      exact hC
    case h_11 =>
      obtain rfl := some_inj.mp h
      exact (hexchange.resolve_left id).1 _ _ hC
    case h_12 =>
      split_ifs at h
      obtain rfl := some_inj.mp h
      exact (hexchange.resolve_left id).2 _ _ _ hC
    case h_7 =>
      obtain rfl := some_inj.mp h
      exact (hexchange.resolve_left id).1 _ _ (hsetX _ _ _ hC)
    case h_8 =>
      obtain rfl := some_inj.mp h
      exact hsetX _ _ _ ((hexchange.resolve_left id).1 _ _ hC)
    case h_13 =>
      split_ifs at h
      obtain rfl := some_inj.mp h
      exact hcx _ _ _ hC
    case h_14 =>
      split_ifs at h
      obtain rfl := some_inj.mp h
      exact hsetX _ _ _ (hsetX _ _ _ hC)
    case h_15 =>
      split_ifs at h
      obtain rfl := some_inj.mp h
      exact hcx _ _ _ ((hexchange.resolve_left id).1 _ _ hC)
    case h_3 =>
      obtain rfl := some_inj.mp h
      exact hsetZ _ _ _ (hsetX _ _ _ hC)
    case h_2 | h_5 | h_6 =>
      obtain rfl := some_inj.mp h
      exact hsetZ _ _ _ hC
    case h_4 | h_9 | h_10 =>
      obtain rfl := some_inj.mp h
      exact hsetX _ _ _ hC
    case h_16 =>
      exact absurd h (by simp)
  | leftMulPauli pauli =>
    obtain rfl := some_inj.mp h
    rw [leftMulPauli_eq_updatePreimages]
    exact updatePreimages_induction hsetX hsetZ _ _ hC
  | leftMulPauliExp pauli =>
    obtain rfl := some_inj.mp h
    unfold CliffordUnitary.leftMulPauliExp
    split_ifs
    · exact updatePreimages_induction hsetX hsetZ _ _ hC
    · exact hC
  | leftMulControlledPauli control target =>
    obtain rfl := some_inj.mp h
    unfold CliffordUnitary.leftMulControlledPauli
    split_ifs
    · exact updatePreimages_induction hsetX hsetZ _ _
        (updatePreimages_induction hsetX hsetZ _ _ hC)
    · exact hC
  | leftMulPermutation permutation support =>
    simp only [apply, CliffordUnitary.leftMulPermutation] at h
    split_ifs at h
    obtain rfl := some_inj.mp h
    exact assignPreimages_induction hsetX hsetZ _ _ hC
  | leftMulClifford clifford support =>
    simp only [apply, CliffordUnitary.leftMulClifford] at h
    split_ifs at h
    obtain rfl := some_inj.mp h
    exact assignPreimages_induction hsetX hsetZ _ _ hC

theorem run_induction {ops : List CliffordOp}
    (hexchange : ∀ op ∈ ops, op.KeepsPointers ∨ ((∀ C q, P C → P (C.leftMulHadamard q)) ∧
      ∀ C q r, P C → P (C.leftMulSwap q r))) {C C' : CliffordUnitary} (hC : P C)
    (h : run ops C = some C') : P C' := by
  induction ops generalizing C with
  | nil =>
    obtain rfl := some_inj.mp h
    exact hC
  | cons op ops ih =>
    obtain ⟨C'', happly, hrun⟩ := bind_eq_some_iff.mp h
    refine ih (fun op hop => hexchange op (List.mem_cons_of_mem _ hop)) ?_ hrun
    exact apply_induction hsetX hsetZ (hexchange op List.mem_cons_self) hC happly

end Induction

theorem identity_induction {P : CliffordUnitary → Prop}
    (hsetX : ∀ C i p, P C → P (C.setPreimageX i p)) (hsetZ : ∀ C i p, P C → P (C.setPreimageZ i p))
    {n : ℕ} (hzero : P (CliffordUnitary.zero n)) : P (CliffordUnitary.identity n) :=
  List.foldlRecOn _ _ hzero fun C hC i _ => hsetZ _ _ _ (hsetX C i _ hC)

theorem storesRows_run_identity {n : ℕ} {ops : List CliffordOp} {C : CliffordUnitary}
    (h : run ops (CliffordUnitary.identity n) = some C) : C.numQubits = n ∧ C.bits.StoresRows := by
  have hsetX : ∀ (C : CliffordUnitary) i p, (C.numQubits = n ∧ C.bits.StoresRows) →
      ((C.setPreimageX i p).numQubits = n ∧ (C.setPreimageX i p).bits.StoresRows) :=
    fun C i p hC => ⟨hC.1, (hC.2.setRow _ _).setRow _ _⟩
  have hsetZ : ∀ (C : CliffordUnitary) i p, (C.numQubits = n ∧ C.bits.StoresRows) →
      ((C.setPreimageZ i p).numQubits = n ∧ (C.setPreimageZ i p).bits.StoresRows) :=
    fun C i p hC => ⟨hC.1, (hC.2.setRow _ _).setRow _ _⟩
  refine run_induction (P := fun C => C.numQubits = n ∧ C.bits.StoresRows) hsetX hsetZ
    (fun op _ => Or.inr ⟨fun C q hC => ?_, fun C q r hC => ?_⟩) ?_ h
  · exact ⟨hC.1, (hC.2.swapRows _ _).swapRows _ _⟩
  · exact ⟨hC.1, (((hC.2.swapRows _ _).swapRows _ _).swapRows _ _).swapRows _ _⟩
  · exact identity_induction (P := fun C => C.numQubits = n ∧ C.bits.StoresRows) hsetX hsetZ
      ⟨rfl, storesRows_fromBlocks _ _⟩

theorem pointersInOrder_run_identity {n : ℕ} {ops : List CliffordOp}
    (hops : ∀ op ∈ ops, op.KeepsPointers) {C : CliffordUnitary}
    (h : run ops (CliffordUnitary.identity n) = some C) : C.bits.PointersInOrder := by
  have hsetX : ∀ (C : CliffordUnitary) i p, C.bits.PointersInOrder →
      (C.setPreimageX i p).bits.PointersInOrder :=
    fun C i p hC => (hC.setRow _ _).setRow _ _
  have hsetZ : ∀ (C : CliffordUnitary) i p, C.bits.PointersInOrder →
      (C.setPreimageZ i p).bits.PointersInOrder :=
    fun C i p hC => (hC.setRow _ _).setRow _ _
  refine run_induction (P := fun C => C.bits.PointersInOrder) hsetX hsetZ
    (fun op hop => Or.inl (hops op hop)) ?_ h
  exact identity_induction (P := fun C => C.bits.PointersInOrder) hsetX hsetZ
    (pointersInOrder_fromBlocks _ _)

end CliffordOp

/-- The words of a matrix or a tableau that a run reaches give it back exactly when it has columns
and its rows have the entries of the rows stored in their positions; a run that exchanges no row
pointers reaches only such matrices and tableaux. -/
theorem roundTrips_run_iff (e : MatrixProgram) (n : ℕ) (ops : List CliffordOp) :
    (∀ m, e.run = some m → (m.RoundTrips ↔ 0 < m.columnCount ∧ m.StoredInOrder) ∧
        (e.KeepsPointers → 0 < m.columnCount → m.RoundTrips)) ∧
    ∀ C, CliffordOp.run ops (CliffordUnitary.identity n) = some C →
      (C.RoundTrips ↔ 0 < n ∧ C.bits.StoredInOrder) ∧
        ((∀ op ∈ ops, op.KeepsPointers) → 0 < n → C.RoundTrips) := by
  constructor
  · intro m hrun
    have hiff := AlignedBitMatrix.roundTrips_iff (MatrixProgram.storesRows_run hrun)
    refine ⟨hiff, fun hkeeps hcolumns => hiff.mpr ⟨hcolumns, ?_⟩⟩
    exact (MatrixProgram.pointersInOrder_run hkeeps hrun).storedInOrder
  · intro C hrun
    obtain ⟨hn, hstores⟩ := CliffordOp.storesRows_run_identity hrun
    have hiff := CliffordUnitary.roundTrips_iff hstores
    rw [hn] at hiff
    refine ⟨hiff, fun hops hpos => hiff.mpr ⟨hpos, ?_⟩⟩
    exact (CliffordOp.pointersInOrder_run_identity hops hrun).storedInOrder

theorem roundTrips_run_iff_gates :
    (CliffordOp.run [.leftMul .ControlledX [0, 1], .leftMul .SqrtZ [1]]
      (CliffordUnitary.identity 2)).any (fun C => C.bits.StoredInOrder) = true ∧
    ∀ C, CliffordOp.run [.leftMul .ControlledX [0, 1], .leftMul .SqrtZ [1]]
      (CliffordUnitary.identity 2) = some C → C.RoundTrips := by
  refine ⟨by decide, fun C hrun => ?_⟩
  have hiff := roundTrips_run_iff (.zeros 0 0) 2 [.leftMul .ControlledX [0, 1], .leftMul .SqrtZ [1]]
  refine (hiff.2 C hrun).2 (fun op hop => ?_) (by decide)
  simp only [List.mem_cons, List.not_mem_nil, or_false] at hop
  rcases hop with rfl | rfl <;> trivial

/-- One Hadamard gate on one qubit gives a tableau whose words are those of the identity. -/
theorem not_roundTrips_hadamard : ¬ ∀ (n : ℕ) (ops : List CliffordOp) (C : CliffordUnitary),
      CliffordOp.run ops (CliffordUnitary.identity n) = some C → C.RoundTrips := by
  intro hall
  have hstores := @CliffordOp.storesRows_run_identity 1 [.leftMul .Hadamard [0]] _ rfl
  obtain ⟨_, horder⟩ := (CliffordUnitary.roundTrips_iff hstores.2).mp
    (hall 1 [.leftMul .Hadamard [0]] _ rfl)
  revert horder
  decide

end QdkEc
