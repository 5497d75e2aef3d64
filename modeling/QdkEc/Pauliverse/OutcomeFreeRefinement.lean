import QdkEc.Pauliverse.OutcomeCompleteRefinement
import QdkEc.Pauliverse.OutcomeFreeSimulation

/-!
# Outcome-free simulation is a projection

This module relates the states of `OutcomeFreeSimulation` to those of
`OutcomeCompleteSimulation`.  Forgetting phases, signs and outcomes commutes
with every operation that mentions qubits in use only; the outcome-free
simulation does not take the qubits of Clifford gates, Paulis and hints into use.
-/

namespace QdkEc

open PhasedPauli Option CliffordUnitary OutcomeCompleteSimulation PauliUnitary

namespace CliffordUnitary

theorem projective_foldl_factors (factors : List PauliUnitary) (target : PauliUnitary) :
    (factors.foldl mulAssignRight target).projective =
      (factors.map PauliUnitary.projective).foldl PauliUnitaryProjective.mulAssignRight
        target.projective := by
  induction factors generalizing target with
  | nil => rfl
  | cons factor factors ih =>
    rw [List.foldl_cons, ih, projective_mulAssignRight, List.map_cons, List.foldl_cons]

theorem projective_assignCliffordPreimage (C : CliffordUnitary) (observable : PauliUnitary) :
    (C.assignCliffordPreimage observable).projective =
      C.projective.assignCliffordPreimage observable.projective := by
  have hfactors : observable.projective.xBits.support.map C.projective.preimageXView ++
      observable.projective.zBits.support.map C.projective.preimageZView =
        (observable.xBits.support.map C.preimageXView ++
          observable.zBits.support.map C.preimageZView).map PauliUnitary.projective := by
    rw [List.map_append, List.map_map, List.map_map]
    rfl
  unfold assignCliffordPreimage CliffordUnitaryModPauli.assignCliffordPreimage
  rw [hfactors]
  cases observable.xBits.support.map C.preimageXView ++
      observable.zBits.support.map C.preimageZView with
  | nil => rfl
  | cons first factors => exact projective_foldl_factors factors first.assigned

theorem projective_rewritePreimagesX (g : ℕ → PauliUnitary → PauliUnitary)
    (g' : ℕ → PauliUnitaryProjective → PauliUnitaryProjective)
    (h : ∀ i p, (g i p).projective = g' i p.projective) (C : CliffordUnitary) (qubits : List ℕ) :
    (C.rewritePreimagesX g qubits).projective = C.projective.rewritePreimagesX g' qubits := by
  refine projective_foldl (fun C index => ?_) qubits C
  rw [projective_setPreimageX, h, ← preimageXView_projective]

theorem projective_rewritePreimagesZ (g : ℕ → PauliUnitary → PauliUnitary)
    (g' : ℕ → PauliUnitaryProjective → PauliUnitaryProjective)
    (h : ∀ i p, (g i p).projective = g' i p.projective) (C : CliffordUnitary) (qubits : List ℕ) :
    (C.rewritePreimagesZ g qubits).projective = C.projective.rewritePreimagesZ g' qubits := by
  refine projective_foldl (fun C index => ?_) qubits C
  rw [projective_setPreimageZ, h, ← preimageZView_projective]

theorem projective_updateAnticommutingGeneratorPreimage (p factor : PauliUnitary)
    (anticommutesWithObservable outcome : Bool) :
    (updateAnticommutingGeneratorPreimage p factor anticommutesWithObservable outcome).projective =
      CliffordUnitaryModPauli.updateAnticommutingGeneratorPreimage p.projective factor.projective
        anticommutesWithObservable := by
  cases anticommutesWithObservable <;> cases outcome <;> rfl

theorem projective_updateEncoderForRandomOutcome (C : CliffordUnitary)
    (observable preimage : PauliUnitary) (pivot : ℕ) (outcome : Bool) :
    (C.updateEncoderForRandomOutcome observable preimage pivot outcome).projective =
      C.projective.updateEncoderForRandomOutcome observable.projective preimage.projective
        pivot := by
  have hmulX := projective_rewritePreimagesX
    (fun _ p => p.mulAssignRight (preimage.mulAssignRightZ pivot))
    (fun _ p => p.mulAssignRight (preimage.projective.mulAssignRightZ pivot)) fun _ _ => rfl
  have hmulZ := projective_rewritePreimagesZ
    (fun _ p => p.mulAssignRight (preimage.mulAssignRightZ pivot))
    (fun _ p => p.mulAssignRight (preimage.projective.mulAssignRightZ pivot)) fun _ _ => rfl
  have hupdateX := projective_rewritePreimagesX
    (fun qubit p => updateAnticommutingGeneratorPreimage p (preimage.mulAssignRightZ pivot)
      (observable.zBits.index qubit) outcome)
    (fun qubit p => CliffordUnitaryModPauli.updateAnticommutingGeneratorPreimage p
      (preimage.projective.mulAssignRightZ pivot) (observable.projective.zBits.index qubit))
    fun _ p => projective_updateAnticommutingGeneratorPreimage p _ _ outcome
  have hupdateZ := projective_rewritePreimagesZ
    (fun qubit p => updateAnticommutingGeneratorPreimage p (preimage.mulAssignRightZ pivot)
      (observable.xBits.index qubit) outcome)
    (fun qubit p => CliffordUnitaryModPauli.updateAnticommutingGeneratorPreimage p
      (preimage.projective.mulAssignRightZ pivot) (observable.projective.xBits.index qubit))
    fun _ p => projective_updateAnticommutingGeneratorPreimage p _ _ outcome
  unfold updateEncoderForRandomOutcome
  rw [hmulZ, hmulX, hupdateZ, hupdateX]
  rfl

theorem exists_resize_of_lt (C : CliffordUnitary) {newQubitCount : ℕ}
    (h : C.numQubits < newQubitCount) :
    ∃ C', C.resize newQubitCount = some C' ∧ C'.numQubits = newQubitCount ∧
      C.projective.resize newQubitCount = some C'.projective := by
  have hresize : C.resize newQubitCount =
      some (C.cliffordTensoredWithIdentity (newQubitCount - C.numQubits)) := by
    rw [resize, Nat.compare_eq_lt.mpr h]
  refine ⟨_, hresize, ?_, ?_⟩
  · rw [numQubits_cliffordTensoredWithIdentity]
    omega
  · rw [← projective_resize (phaseFreeFrom_of_resize hresize), hresize]
    rfl

end CliffordUnitary

theorem CliffordUnitaryModPauli.leftMulPauli_eq (C : CliffordUnitaryModPauli)
    (pauli : PauliUnitaryProjective) : C.leftMulPauli pauli = C := by
  have hx : pauli.xBits.support.foldl leftMulX C = C := List.foldl_fixed' (fun _ => rfl) _
  have hz : pauli.zBits.support.foldl leftMulZ C = C := List.foldl_fixed' (fun _ => rfl) _
  rw [leftMulPauli, hx, hz]

variable {n : ℕ}

namespace OutcomeFreeSimulation

/-- A unitary operation mentions qubits in use wherever it does not take them into use. -/
def UnitaryInUse (n : ℕ) : CliffordOp → Prop
  | .leftMulPauli pauli => pauli.Below n
  | .leftMulClifford _ support => ∀ qubit ∈ support, qubit < n
  | _ => True

instance (n : ℕ) (op : CliffordOp) : Decidable (UnitaryInUse n op) :=
  match op with
  | .leftMul _ _ => inferInstanceAs (Decidable True)
  | .leftMulPauli pauli => inferInstanceAs (Decidable (pauli.Below n))
  | .leftMulPauliExp _ => inferInstanceAs (Decidable True)
  | .leftMulControlledPauli _ _ => inferInstanceAs (Decidable True)
  | .leftMulPermutation _ _ => inferInstanceAs (Decidable True)
  | .leftMulClifford _ support => inferInstanceAs (Decidable (∀ qubit ∈ support, qubit < n))

/-- An operation mentions qubits in use wherever it does not take them into use; the hint of a
measurement follows the observable. -/
def InUse (n : ℕ) : SimulationOp → Prop
  | .unitary op => UnitaryInUse n op
  | .conditionalPauli pauli _ _ => pauli.Below n
  | .measure _ => True
  | .measureWithHint observable hint => hint.Below (max n (qubitBound observable.maxSupport))
  | .allocateRandomBit => True

instance (n : ℕ) (op : SimulationOp) : Decidable (InUse n op) :=
  match op with
  | .unitary op => inferInstanceAs (Decidable (UnitaryInUse n op))
  | .conditionalPauli pauli _ _ => inferInstanceAs (Decidable (pauli.Below n))
  | .measure _ => inferInstanceAs (Decidable True)
  | .measureWithHint _ hint => inferInstanceAs (Decidable (hint.Below _))
  | .allocateRandomBit => inferInstanceAs (Decidable True)

/-- Every operation of a circuit mentions qubits in use where it must when its turn comes. -/
def InUseFrom : ℕ → List SimulationOp → Prop
  | _, [] => True
  | n, op :: ops => InUse n op ∧ InUseFrom (max n (qubitBound op.maxSupport)) ops

instance decidableInUseFrom :
    ∀ (n : ℕ) (ops : List SimulationOp), Decidable (InUseFrom n ops)
  | _, [] => inferInstanceAs (Decidable True)
  | n, op :: ops =>
    have := decidableInUseFrom (max n (qubitBound op.maxSupport)) ops
    inferInstanceAs (Decidable (_ ∧ _))

theorem InUseFrom.left {first rest : List SimulationOp} (h : InUseFrom n (first ++ rest)) :
    InUseFrom n first := by
  induction first generalizing n with
  | nil => trivial
  | cons op first ih => exact ⟨h.1, ih h.2⟩

theorem InUseFrom.conditionalPaulis {ops : List SimulationOp} (h : InUseFrom n ops) :
    SimulationOp.InUseFrom n ops := by
  induction ops generalizing n with
  | nil => trivial
  | cons op ops ih =>
    refine ⟨?_, ih h.2⟩
    cases op with
    | conditionalPauli pauli outcomes parity => exact h.1
    | unitary _ | measure _ | measureWithHint _ _ | allocateRandomBit => trivial

end OutcomeFreeSimulation

variable {C : CliffordUnitary}

namespace OutcomeCompleteSimulation

/-- Forget the phases, the signs and the outcomes of a simulation. -/
def projection (c : OutcomeCompleteSimulation) : OutcomeFreeSimulation where
  clifford := c.clifford.projective
  outcomeIntroducesBranchBit := c.outcomeIntroducesBranchBit
  branchBitCount := c.branchBitCount
  qubitCount := c.qubitCount

/-- The encoder on the qubits in use; `none` is a failed assertion. -/
def stateEncoder (c : OutcomeCompleteSimulation) : Option CliffordUnitary :=
  c.clifford.resize c.qubitCount

/-- The qubits in use fit in the tableau. -/
def HasRoom (c : OutcomeCompleteSimulation) : Prop :=
  c.qubitCount ≤ c.qubitCapacity

theorem projection_withCapacity (qubitCount outcomeCount branchBitCount : ℕ) :
    (withCapacity qubitCount outcomeCount branchBitCount).projection =
      OutcomeFreeSimulation.withCapacity qubitCount outcomeCount branchBitCount := by
  simp only [projection, withCapacity, OutcomeFreeSimulation.withCapacity, projective_identity]

theorem hasRoom_withCapacity (qubitCount outcomeCount branchBitCount : ℕ) :
    (withCapacity qubitCount outcomeCount branchBitCount).HasRoom := by
  simp [HasRoom, withCapacity, qubitCapacity]

theorem projection_stateEncoder {c : OutcomeCompleteSimulation} {E : CliffordUnitary}
    (h : c.stateEncoder = some E) : c.projection.stateEncoder = some E.projective := by
  have hresize := projective_resize (phaseFreeFrom_of_resize h)
  rw [show c.clifford.resize c.qubitCount = some E from h] at hresize
  exact hresize.symm

/-- A result projects to the result of the projected operation, and the qubits of the operation are
in use afterwards. -/
structure Projects (c c' : OutcomeCompleteSimulation) (maxQubitId : Option ℕ)
    (result : Option OutcomeFreeSimulation) :
    Prop where
  result_eq : result = some c'.projection
  qubitCount_eq : c'.qubitCount = max c.qubitCount (qubitBound maxQubitId)
  hasRoom : c'.HasRoom

section Operations

variable {c c' : OutcomeCompleteSimulation}

theorem HasRoom.ensureQubitCapacity (h : c.HasRoom) (maxQubitId : Option ℕ) :
    ∃ c', c.ensureQubitCapacity maxQubitId = some c' ∧
      Projects c c' maxQubitId (c.projection.ensureQubitCapacity maxQubitId) := by
  cases maxQubitId with
  | none => exact ⟨c, rfl, rfl, (Nat.max_zero c.qubitCount).symm, h⟩
  | some id =>
    have hroom : c.qubitCount ≤ c.clifford.numQubits := h
    rcases Nat.lt_or_ge id c.clifford.numQubits with hid | hid
    · have hkeep : ¬ id ≥ c.clifford.numQubits := by omega
      exact ⟨{ c with qubitCount := max c.qubitCount (id + 1) }, if_neg hkeep, if_neg hkeep,
        rfl, max_le h hid⟩
    · have hpower := le_nextPowerOfTwo (id + 1)
      have hgrow : c.clifford.numQubits < nextPowerOfTwo (id + 1) := by omega
      obtain ⟨C', hresize, hcount, hprojective⟩ := c.clifford.exists_resize_of_lt hgrow
      refine ⟨{ c with
        qubitCount := max c.qubitCount (id + 1)
        signMatrix := c.signMatrix.resize (nextPowerOfTwo (id + 1)) c.signMatrix.columnCount
        clifford := C' }, ?_, ?_, rfl, ?_⟩
      · simp [OutcomeCompleteSimulation.ensureQubitCapacity, qubitCapacity, reserveQubits, hid,
          hgrow, hresize]
      · simp [OutcomeFreeSimulation.ensureQubitCapacity, OutcomeFreeSimulation.qubitCapacity,
          OutcomeFreeSimulation.reserveQubits, projection, hid, hgrow, hprojective]
      · change max c.qubitCount (id + 1) ≤ C'.numQubits
        omega

theorem HasRoom.ensureQubitCapacity_of_le (h : c.HasRoom) {maxQubitId : Option ℕ}
    (hbound : qubitBound maxQubitId ≤ c.qubitCount) :
    c.ensureQubitCapacity maxQubitId = some c := by
  cases maxQubitId with
  | none => rfl
  | some id =>
    have hid : id + 1 ≤ c.qubitCount := hbound
    have hroom : c.qubitCount ≤ c.clifford.numQubits := h
    have hkeep : ¬ id ≥ c.clifford.numQubits := by omega
    simp [OutcomeCompleteSimulation.ensureQubitCapacity, qubitCapacity, max_eq_left hid, hkeep]

variable {op : CliffordOp}

theorem applyClifford_eq_some_iff : c.applyClifford op = some c' ↔
      ∃ C', op.apply c.clifford = some C' ∧ { c with clifford := C' } = c' := by
  simp [applyClifford, bind_eq_some_iff]

theorem applyModPauli_eq_of_apply {C C' : CliffordUnitary} (happly : op.apply C = some C') :
    (CliffordUnitary.CliffordStep.mutate op).applyModPauli C.projective = some C'.projective := by
  have hphase : (CliffordUnitary.CliffordStep.mutate op).PhaseFree C := trivial
  rw [← CliffordUnitary.CliffordStep.projective_apply hphase]
  exact congrArg (Option.map CliffordUnitary.projective) happly

theorem HasRoom.unitary (h : c.HasRoom)
    (hinUse : OutcomeFreeSimulation.UnitaryInUse c.qubitCount op)
    (hunitary : c.unitary op = some c') :
    Projects c c' op.maxSupport (c.projection.unitary op) := by
  obtain ⟨c₁, hensure, hresult, hcount, hroom⟩ := h.ensureQubitCapacity op.maxSupport
  have hclifford : c₁.applyClifford op = some c' := by
    simpa [OutcomeCompleteSimulation.unitary, hensure] using hunitary
  obtain ⟨C', happly, rfl⟩ := applyClifford_eq_some_iff.mp hclifford
  have hbits := applyModPauli_eq_of_apply happly
  have hroom' : HasRoom { c₁ with clifford := C' } :=
    hroom.trans_eq (CliffordOp.numQubits_apply happly).symm
  have hkeep : qubitBound op.maxSupport ≤ c.qubitCount → c₁ = c := fun hbound =>
    some_inj.mp (hensure.symm.trans (h.ensureQubitCapacity_of_le hbound))
  refine ⟨?_, hcount, hroom'⟩
  have hin : ∀ {result : OutcomeFreeSimulation → Option OutcomeFreeSimulation},
      result c₁.projection = some (projection { c₁ with clifford := C' }) →
        (c.projection.ensureQubitCapacity op.maxSupport).bind result =
          some (projection { c₁ with clifford := C' }) := by
    intro result hresult₁
    rw [hresult, bind_some, hresult₁]
  have hset : ∀ {bits : Option CliffordUnitaryModPauli}, bits = some C'.projective →
      (bits.bind fun bits => some { c₁.projection with clifford := bits }) =
        some (projection { c₁ with clifford := C' }) := by
    rintro _ rfl
    rfl
  cases op with
  | leftMul operation support => exact hin (hset hbits)
  | leftMulPauli observable =>
    obtain rfl := hkeep (qubitBound_le_iff.mpr (below_iff_maxSupport.mp hinUse))
    rw [← hset hbits]
    exact congrArg (fun bits => some { c₁.projection with clifford := bits })
      (CliffordUnitaryModPauli.leftMulPauli_eq _ _).symm
  | leftMulPauliExp sparsePauli => exact hin (hset hbits)
  | leftMulControlledPauli observable1 observable2 => exact hin (hset hbits)
  | leftMulPermutation permutation support => exact hin (hset hbits)
  | leftMulClifford gate support =>
    obtain rfl := hkeep (qubitBound_le_iff.mpr (maxSupport_lt_iff.mpr hinUse))
    have hrange : ∀ qubit ∈ support, qubit < c₁.projection.qubitCapacity :=
      fun qubit hqubit => (hinUse qubit hqubit).trans_le h
    exact (if_pos hrange).trans (hset hbits)

theorem projection_ensureOutcomeCapacity {randomOutcome : Bool}
    (hensure : c.ensureOutcomeCapacity randomOutcome = some c') :
    c'.clifford = c.clifford ∧ c'.projection = c.projection := by
  obtain ⟨_, hensure⟩ := ite_none_right_eq_some.mp hensure
  obtain rfl := some_inj.mp hensure
  exact ⟨rfl, rfl⟩

theorem projection_allocateBranchBit {location : BranchBitLocation}
    (hallocate : c.allocateBranchBit = some (c', location)) :
    c'.clifford = c.clifford ∧ c'.projection = c.projection.allocateRandomBit := by
  simp only [allocateBranchBit, bind_eq_bind, bind_eq_some_iff, some_inj,
    Prod.mk.injEq] at hallocate
  obtain ⟨c₁, hensure, rfl, _⟩ := hallocate
  obtain ⟨hclifford, hprojection⟩ := projection_ensureOutcomeCapacity hensure
  refine ⟨hclifford, ?_⟩
  rw [← hprojection]
  rfl

theorem projection_measureAt {observable : PauliUnitary}
    (hmeasure : (match (c.clifford.assignCliffordPreimage observable).xBits.support.head? with
      | some pos => c.measureRandom observable (c.clifford.assignCliffordPreimage observable) pos
      | none => c.measureDeterministic (c.clifford.assignCliffordPreimage observable)) = some c') :
    c'.clifford.numQubits = c.clifford.numQubits ∧
      c'.projection = c.projection.measureProjective observable.projective := by
  have hpreimage : c.projection.clifford.assignCliffordPreimage observable.projective =
      (c.clifford.assignCliffordPreimage observable).projective :=
    (projective_assignCliffordPreimage c.clifford observable).symm
  cases hpivot : (c.clifford.assignCliffordPreimage observable).xBits.support.head? with
  | none =>
    have hpivot' : (c.clifford.assignCliffordPreimage
        observable).projective.xBits.support.head? = none := hpivot
    simp only [hpivot, measureDeterministic, bind_eq_bind, bind_eq_some_iff, some_inj] at hmeasure
    obtain ⟨c₁, hensure, rfl⟩ := hmeasure
    obtain ⟨hclifford, hprojection⟩ := projection_ensureOutcomeCapacity hensure
    refine ⟨congrArg CliffordUnitary.numQubits hclifford, ?_⟩
    have hfree : c.projection.measureProjective observable.projective = { c.projection with
        outcomeIntroducesBranchBit := c.projection.outcomeIntroducesBranchBit ++ [false] } := by
      simp only [OutcomeFreeSimulation.measureProjective, hpreimage, hpivot']
    rw [hfree, ← hprojection]
    rfl
  | some pivot =>
    have hpivot' : (c.clifford.assignCliffordPreimage
        observable).projective.xBits.support.head? = some pivot := hpivot
    simp only [hpivot, measureRandom, bind_eq_bind, bind_eq_some_iff, some_inj] at hmeasure
    obtain ⟨⟨c₁, location⟩, hallocate, rfl⟩ := hmeasure
    obtain ⟨hclifford, hprojection⟩ := projection_allocateBranchBit hallocate
    have hupdate := projective_updateEncoderForRandomOutcome c₁.clifford
      observable (c.clifford.assignCliffordPreimage observable) pivot false
    refine ⟨?_, ?_⟩
    · rw [← hclifford]
      exact numQubits_updateEncoderForRandomOutcome _ _ _ _ _
    · have hfree : c.projection.measureProjective observable.projective =
          { c.projection.allocateRandomBit with
            clifford := c.projection.allocateRandomBit.clifford.updateEncoderForRandomOutcome
              observable.projective (c.clifford.assignCliffordPreimage observable).projective
              pivot } := by
        simp only [OutcomeFreeSimulation.measureProjective, hpreimage, hpivot']
      rw [hfree, ← hprojection]
      exact congrArg (fun bits => { c₁.projection with clifford := bits }) hupdate

omit c c' in
@[simp]
theorem qubitCount_measureProjective (s : OutcomeFreeSimulation)
    (observable : PauliUnitaryProjective) :
    (s.measureProjective observable).qubitCount = s.qubitCount := by
  unfold OutcomeFreeSimulation.measureProjective
  dsimp only
  split <;> rfl

omit c c' in
theorem qubitCount_of_measureWithHintGeneric {s s' : OutcomeFreeSimulation}
    {observable hint : PauliUnitaryProjective}
    (h : s.measureWithHintGeneric observable hint = some s') : s'.qubitCount = s.qubitCount := by
  unfold OutcomeFreeSimulation.measureWithHintGeneric at h
  obtain ⟨_, h⟩ := ite_none_right_eq_some.mp h
  dsimp only at h
  split at h
  · obtain rfl := some_inj.mp h
    exact qubitCount_measureProjective s observable
  · obtain ⟨_, h⟩ := ite_none_right_eq_some.mp h
    obtain rfl := some_inj.mp h
    rfl

theorem HasRoom.measure (h : c.HasRoom) {observable : PauliUnitary}
    (hmeasure : c.measure observable = some c') :
    Projects c c' observable.maxSupport (c.projection.measure observable) := by
  obtain ⟨c₁, hensure, hresult, hcount, hroom⟩ := h.ensureQubitCapacity observable.maxSupport
  simp only [OutcomeCompleteSimulation.measure, hensure, bind_eq_bind, bind_some] at hmeasure
  obtain ⟨hnumQubits, hprojection⟩ := projection_measureAt hmeasure
  have hqubitCount : c'.qubitCount = c₁.qubitCount := by
    have hsame := congrArg OutcomeFreeSimulation.qubitCount hprojection
    rwa [qubitCount_measureProjective] at hsame
  refine ⟨?_, hqubitCount.trans hcount, ?_⟩
  · rw [hprojection, OutcomeFreeSimulation.measure, hresult]
    rfl
  · change c'.qubitCount ≤ c'.clifford.numQubits
    rw [hqubitCount, hnumQubits]
    exact hroom

variable {observable hint : PauliUnitary}

theorem HasRoom.ensureQubitCapacity_maxPairSupport (h : c.HasRoom)
    (hhint : hint.Below (max c.qubitCount (qubitBound observable.maxSupport))) :
    c.ensureQubitCapacity (maxPairSupport observable hint) =
      c.ensureQubitCapacity observable.maxSupport := by
  rw [below_iff_maxSupport] at hhint
  have hkeep : ∀ {m : Option ℕ}, qubitBound m ≤ c.qubitCount →
      c.ensureQubitCapacity m = some c := h.ensureQubitCapacity_of_le
  unfold maxPairSupport
  cases hobservable : observable.maxSupport with
  | none =>
    cases hmax : hint.maxSupport with
    | none => rfl
    | some id =>
      have hid := hhint id hmax
      rw [hobservable] at hid
      exact hkeep (by simpa [qubitBound] using hid)
  | some id =>
    cases hmax : hint.maxSupport with
    | none => rfl
    | some id' =>
      have hid := hhint id' hmax
      rw [hobservable] at hid
      simp only [qubitBound, elim_some] at hid
      change c.ensureQubitCapacity (some (max id id')) = _
      rcases Nat.lt_or_ge id id' with hlt | hle
      · rw [max_eq_right hlt.le, hkeep (by simp only [qubitBound, elim_some]; omega),
          hkeep (by simp only [qubitBound, elim_some]; omega)]
      · rw [max_eq_left hle]

theorem readsRows_projective {pauli : PauliUnitary} (hpauli : pauli.Below C.numQubits) :
    C.projective.ReadsRows pauli.projective := by
  have hrows : C.projective.bits.rowCount = 4 * C.numQubits := C.rowCount_eq
  constructor
  · intro id hid
    have hlt := hpauli.1.lt_of_index (Bits.mem_support.mp hid)
    simp only [zOfPx, zOfPreimageXOffset, hrows, numQubits_projective]
    omega
  · intro id hid
    have hlt := hpauli.2.lt_of_index (Bits.mem_support.mp hid)
    simp only [zOfPz, zOfPreimageZOffset, hrows, numQubits_projective]
    omega

theorem HasRoom.measureWithHintAt (h : c.HasRoom)
    (hobservable : observable.Below c.qubitCount) (hhint : hint.Below c.qubitCount)
    (hanti : observable.antiCommutesWith hint = true)
    (hmeasure : (match (c.clifford.preimage hint).xBits.support.head? with
      | some _ => c.measure observable
      | none => (c.unitary (.leftMulPauliExp (hintedPauli observable hint
          (c.clifford.preimage hint)))).bind fun c₁ =>
            c₁.allocateBranchBit.bind fun (c₂, location) =>
              some (c₂.applyPauliConditionedOnBranchBits hint (AlignedBitMatrix.assignIndex
                (rowSum c₂.signMatrix (c.clifford.preimage hint).zBits.support)
                  location.branchBitIndex true))) = some c') :
    c'.clifford.numQubits = c.clifford.numQubits ∧
      c.projection.measureWithHintGeneric observable.projective hint.projective =
        some c'.projection := by
  have hpreimage : c.projection.clifford.preimage hint.projective =
      (c.clifford.preimage hint).projective :=
    (projective_preimage c.clifford hint).symm
  have hchecks : observable.projective.antiCommutesWith hint.projective = true ∧
      c.projection.clifford.ReadsRows hint.projective :=
    ⟨hanti, readsRows_projective (hhint.mono h)⟩
  cases hpivot : (c.clifford.preimage hint).xBits.support.head? with
  | some pivot =>
    have hpivot' : (c.clifford.preimage hint).projective.xBits.support.head? = some pivot :=
      hpivot
    have hbound := qubitBound_le_iff.mpr (below_iff_maxSupport.mp hobservable)
    simp only [hpivot, OutcomeCompleteSimulation.measure, h.ensureQubitCapacity_of_le hbound,
      bind_eq_bind, bind_some] at hmeasure
    obtain ⟨hnumQubits, hprojection⟩ := projection_measureAt hmeasure
    refine ⟨hnumQubits, ?_⟩
    simp only [OutcomeFreeSimulation.measureWithHintGeneric, if_pos hchecks, hpreimage, hpivot',
      hprojection]
  | none =>
    have hpivot' : (c.clifford.preimage hint).projective.xBits.support.head? = none := hpivot
    have hpauli : (hintedPauli observable hint (c.clifford.preimage hint)).Below c.qubitCount :=
      ⟨hobservable.1.add hhint.1, hobservable.2.add hhint.2⟩
    have hbound := qubitBound_le_iff.mpr (below_iff_maxSupport.mp hpauli)
    have hunitary : c.unitary (.leftMulPauliExp (hintedPauli observable hint
        (c.clifford.preimage hint))) = some { c with
          clifford := c.clifford.leftMulPauliExp
            (hintedPauli observable hint (c.clifford.preimage hint)) } := by
      simp only [OutcomeCompleteSimulation.unitary, CliffordOp.maxSupport,
        h.ensureQubitCapacity_of_le hbound, bind_eq_bind, bind_some]
      rfl
    simp only [hpivot, hunitary, bind_some, bind_eq_some_iff, some_inj] at hmeasure
    obtain ⟨⟨c₂, location⟩, hallocate, rfl⟩ := hmeasure
    obtain ⟨hclifford, hprojection⟩ := projection_allocateBranchBit hallocate
    have hbelow : (observable.projective.mulAssignRight hint.projective).Below
        c.projection.qubitCapacity :=
      ⟨(hobservable.1.add hhint.1).mono h, (hobservable.2.add hhint.2).mono h⟩
    have hexp := projective_leftMulPauliExp c.clifford
      (hintedPauli observable hint (c.clifford.preimage hint))
    refine ⟨?_, ?_⟩
    · change c₂.clifford.numQubits = _
      have happly : CliffordOp.apply (.leftMulPauliExp (hintedPauli observable hint
          (c.clifford.preimage hint))) c.clifford = some (c.clifford.leftMulPauliExp
            (hintedPauli observable hint (c.clifford.preimage hint))) := rfl
      rw [hclifford]
      exact CliffordOp.numQubits_apply happly
    · change _ = some c₂.projection
      simp only [OutcomeFreeSimulation.measureWithHintGeneric, if_pos hchecks, hpreimage,
        hpivot', if_pos hbelow, hprojection, some_inj]
      exact congrArg (fun bits =>
        { c.projection with clifford := bits }.allocateRandomBit) hexp.symm

theorem HasRoom.measureWithHint (h : c.HasRoom)
    (hhint : hint.Below (max c.qubitCount (qubitBound observable.maxSupport)))
    (hmeasure : c.measureWithHint observable hint = some c') :
    Projects c c' (maxPairSupport observable hint)
      (c.projection.measureWithHint observable hint) := by
  obtain ⟨c₁, hensure, hresult, hcount, hroom⟩ := h.ensureQubitCapacity observable.maxSupport
  obtain ⟨c₂, hensure', _, hcount', _⟩ :=
    h.ensureQubitCapacity (maxPairSupport observable hint)
  have hpair := h.ensureQubitCapacity_maxPairSupport hhint
  obtain rfl := some_inj.mp ((hensure.symm.trans hpair.symm).trans hensure')
  have hobservable : observable.Below c₁.qubitCount := by
    rw [hcount, below_iff_maxSupport, ← qubitBound_le_iff]
    exact le_max_right _ _
  simp only [OutcomeCompleteSimulation.measureWithHint, hensure', bind_eq_bind,
    bind_some] at hmeasure
  obtain ⟨hanti, hmeasure⟩ := ite_none_right_eq_some.mp hmeasure
  obtain ⟨hnumQubits, hgeneric⟩ :=
    hroom.measureWithHintAt hobservable (hcount ▸ hhint) hanti hmeasure
  have hqubitCount : c'.qubitCount = c₁.qubitCount :=
    qubitCount_of_measureWithHintGeneric hgeneric
  refine ⟨?_, hqubitCount.trans hcount', ?_⟩
  · rw [OutcomeFreeSimulation.measureWithHint, hresult]
    exact hgeneric
  · change c'.qubitCount ≤ c'.clifford.numQubits
    rw [hqubitCount, hnumQubits]
    exact hroom

theorem HasRoom.conditionalPauli (h : c.HasRoom) {observable : PauliUnitary}
    (hinUse : observable.Below c.qubitCount) {outcomes : List ℕ} {parity : Bool}
    (hconditional : c.conditionalPauli observable outcomes parity = some c') :
    Projects c c' observable.maxSupport (some c.projection) := by
  have hbound := qubitBound_le_iff.mpr (below_iff_maxSupport.mp hinUse)
  simp only [OutcomeCompleteSimulation.conditionalPauli, h.ensureQubitCapacity_of_le hbound,
    bind_eq_bind, bind_some, bind_eq_some_iff] at hconditional
  obtain ⟨control, _, hbranch⟩ := hconditional
  split_ifs at hbranch
  · obtain ⟨c₁, hpauli, hsigns⟩ := bind_eq_some_iff.mp hbranch
    obtain rfl := some_inj.mp hsigns
    have hpauliInUse : OutcomeFreeSimulation.UnitaryInUse c.qubitCount
        (.leftMulPauli observable) := hinUse
    obtain ⟨hresult, hcount, hroom⟩ := h.unitary hpauliInUse hpauli
    exact ⟨hresult, hcount, hroom⟩
  · obtain rfl := some_inj.mp hbranch
    exact ⟨rfl, (max_eq_left hbound).symm, h⟩

theorem HasRoom.apply (h : c.HasRoom) {op : SimulationOp}
    (hinUse : OutcomeFreeSimulation.InUse c.qubitCount op) (happly : c.apply op = some c') :
    Projects c c' op.maxSupport (c.projection.apply op) := by
  cases op with
  | unitary op => exact h.unitary hinUse happly
  | conditionalPauli observable outcomes parity => exact h.conditionalPauli hinUse happly
  | measure observable => exact h.measure happly
  | measureWithHint observable hint => exact h.measureWithHint hinUse happly
  | allocateRandomBit =>
    obtain ⟨⟨c₁, location⟩, hallocate, rfl⟩ := map_eq_some_iff.mp happly
    obtain ⟨hclifford, hprojection⟩ := projection_allocateBranchBit hallocate
    have hcount : c₁.qubitCount = c.qubitCount :=
      congrArg OutcomeFreeSimulation.qubitCount hprojection
    refine ⟨congrArg some hprojection.symm, ?_, ?_⟩
    · simp [hcount, SimulationOp.maxSupport, qubitBound]
    · change c₁.qubitCount ≤ c₁.clifford.numQubits
      rw [hcount, hclifford]
      exact h

end Operations

theorem HasRoom.run {ops : List SimulationOp} {c c' : OutcomeCompleteSimulation} (h : c.HasRoom)
    (hinUse : OutcomeFreeSimulation.InUseFrom c.qubitCount ops) (hrun : run ops c = some c') :
    OutcomeFreeSimulation.run ops c.projection = some c'.projection := by
  induction ops generalizing c with
  | nil =>
    obtain rfl := some_inj.mp hrun
    rfl
  | cons op ops ih =>
    obtain ⟨c₁, happly, hrun⟩ := bind_eq_some_iff.mp hrun
    obtain ⟨hresult, hcount, hroom⟩ := h.apply hinUse.1 happly
    refine bind_eq_some_iff.mpr ⟨c₁.projection, hresult, ?_⟩
    refine ih hroom ?_ hrun
    rw [hcount]
    exact hinUse.2

end OutcomeCompleteSimulation

/-- Forget the phase of an operator. -/
def PhasedPauli.projective (p : PhasedPauli) : PauliUnitaryProjective where
  xBits := p.xBits
  zBits := p.zBits

/-- The operators on qubits in use of which some sign is a stabilizer. -/
def OutcomeFreeSimulation.stabilizers (s : OutcomeFreeSimulation) : Set PauliUnitaryProjective :=
  {p | p.Below s.qubitCount ∧ (s.clifford.preimage p).xBits = 0}

theorem CliffordUnitary.Encodes.xBits_preimage_projective
    (h : C.Encodes n) {p : PhasedPauli} (hp : p.Below n) :
    (C.projective.preimage p.projective).xBits = (C.frame.lift p).xBits := by
  have hpauli : PauliUnitary.Below C.numQubits ⟨p.xBits, p.zBits, 0⟩ := hp.mono h.le
  have hpreimage := projective_preimage C ⟨p.xBits, p.zBits, 0⟩
  have hlift := congrArg PhasedPauli.xBits (CliffordUnitary.toPhased_preimage hpauli)
  -- the bits of a lifted operator do not depend on its phase
  have hphase : (C.frame.lift (toPhased ⟨p.xBits, p.zBits, 0⟩)).xBits =
      (C.frame.lift p).xBits := by
    simp [GeneratorFrame.lift]
  rw [← hphase, ← hlift]
  exact (congrArg PauliUnitaryProjective.xBits hpreimage).symm

theorem CliffordUnitary.Encodes.projective_image_stabilizers (h : C.Encodes n) (σ : Bits) :
    PhasedPauli.projective '' {p | p ∈ C.frame.stabilizers σ ∧ p.Below n} =
      {p | p.Below n ∧ (C.projective.preimage p).xBits = 0} := by
  ext q
  constructor
  · rintro ⟨p, ⟨hstabilizer, hp⟩, rfl⟩
    refine ⟨hp, ?_⟩
    rw [h.xBits_preimage_projective hp]
    exact hstabilizer.1
  · rintro ⟨hq, hx⟩
    have hp : PhasedPauli.Below n ⟨0, q.xBits, q.zBits⟩ := hq
    have hlift := (h.xBits_preimage_projective hp).symm.trans hx
    -- the phase that the signs demand
    refine ⟨iPow (twist (Bits.dot (C.frame.lift ⟨0, q.xBits, q.zBits⟩).zBits σ) -
      (C.frame.lift ⟨0, q.xBits, q.zBits⟩).phase) * ⟨0, q.xBits, q.zBits⟩, ⟨?_, ?_⟩, ?_⟩
    · rw [GeneratorFrame.mem_stabilizers_iff, h.frame.lift_iPow_mul]
      refine ⟨by simpa using hlift, ?_⟩
      simp
    · exact (below_iPow n _).mul hp
    · simp [PhasedPauli.projective]

theorem OutcomeCompleteSimulation.Invariant.projective_image_signedGroup
    {c : OutcomeCompleteSimulation} (h : c.Invariant n) (r : Bits) :
    PhasedPauli.projective '' (signedGroup c.qubitCount (fun i => (c.clifford.imageZ i).toPhased)
        (fun i => Bits.dot (c.signMatrix.row i) r) : Set PhasedPauli) =
      c.projection.stabilizers := by
  have hsigns : (fun i => Bits.dot (c.signMatrix.row i) r) = (c.signs r).index :=
    funext fun i => (c.index_signs r i).symm
  have hgroup := h.encodes.frame.coe_signedGroup h.encodes.fixesFrom
    (fun _ hi => toPhased_imageZ h.encodes.frame
      (lt_of_lt_of_le hi h.encodes.le)) (c.signs r)
  rw [hsigns, h.qubitCount_eq, hgroup, h.encodes.projective_image_stabilizers, ← h.qubitCount_eq]
  rfl

/-- The outcome-free simulation is the projection of the outcome-complete one.  On a circuit
whose Clifford gates, Paulis and hints mention qubits in use only, after every instruction up to
which the outcome-complete simulation returns, the outcome-free one has returned with the same
random-outcome indicators and the same encoder modulo phases, and its stabilizers are those of every
branch modulo phases.  Started without capacities, the outcome-complete simulation does return. -/
theorem outcomeFree_is_projection (qubitCount outcomeCount branchBitCount : ℕ)
    (first rest : List SimulationOp)
    (hinUse : OutcomeFreeSimulation.InUseFrom qubitCount (first ++ rest)) :
    (∀ c, OutcomeCompleteSimulation.run first (OutcomeCompleteSimulation.withCapacity qubitCount
          outcomeCount branchBitCount) = some c →
        ∃ s, OutcomeFreeSimulation.run first (OutcomeFreeSimulation.withCapacity qubitCount
            outcomeCount branchBitCount) = some s ∧
          s.outcomeIntroducesBranchBit = c.outcomeIntroducesBranchBit ∧
          s.qubitCount = c.qubitCount ∧ s.clifford = c.clifford.projective ∧
          (∀ E, c.stateEncoder = some E → s.stateEncoder = some E.projective) ∧
          (SimulationOp.WellFormedFrom 0 first → ∀ r : Bits,
            s.stabilizers = PhasedPauli.projective '' (signedGroup c.qubitCount
              (fun i => (c.clifford.imageZ i).toPhased)
              (fun i => Bits.dot (c.signMatrix.row i) r) : Set PhasedPauli))) ∧
      (SimulationOp.WellFormedFrom 0 first → ∃ c, OutcomeCompleteSimulation.run first
        (OutcomeCompleteSimulation.new qubitCount) = some c) := by
  have hfirst := hinUse.left
  have hstart := invariant_withCapacity qubitCount
  refine ⟨fun c hrun => ?_, fun hops => ?_⟩
  · have hroom := hasRoom_withCapacity qubitCount outcomeCount
      branchBitCount
    have hfree := hroom.run hfirst hrun
    rw [projection_withCapacity] at hfree
    refine ⟨c.projection, hfree, rfl, rfl, rfl,
      fun E hE => projection_stateEncoder hE, fun hops r => ?_⟩
    have hc := (hstart outcomeCount branchBitCount).of_run hops hrun
    exact (hc.projective_image_signedGroup r).symm
  · obtain ⟨c, hrun, _⟩ := (hstart 0 0).run hops ((hstart 0 0).runFits
      (capacityFits_new qubitCount) hops hfirst.conditionalPaulis)
    exact ⟨c, hrun⟩

/-- A circuit with a gate, measurements with and without a hint, and feed-forward. -/
theorem outcomeFree_is_projection_on_feedForward : ∃ c, OutcomeCompleteSimulation.run
        [.unitary (.leftMulClifford (CliffordUnitary.identity 1) [0]),
          .measureWithHint (PauliUnitary.x 0) (PauliUnitary.z 0),
          .conditionalPauli (PauliUnitary.z 0) [0] true]
        (OutcomeCompleteSimulation.withCapacity 1 0 0) = some c ∧ ∃ s, OutcomeFreeSimulation.run
          [.unitary (.leftMulClifford (CliffordUnitary.identity 1) [0]),
            .measureWithHint (PauliUnitary.x 0) (PauliUnitary.z 0),
            .conditionalPauli (PauliUnitary.z 0) [0] true]
          (OutcomeFreeSimulation.withCapacity 1 0 0) = some s ∧
        s.outcomeIntroducesBranchBit = c.outcomeIntroducesBranchBit := by
  have hprojection := outcomeFree_is_projection 1 0 0
    [.unitary (.leftMulClifford (CliffordUnitary.identity 1) [0]),
      .measureWithHint (PauliUnitary.x 0) (PauliUnitary.z 0),
      .conditionalPauli (PauliUnitary.z 0) [0] true]
    [.measure (PauliUnitary.x 0)] (by decide)
  obtain ⟨c, hrun⟩ := hprojection.2 (by decide +kernel)
  obtain ⟨s, hfree, hindicators, _⟩ := hprojection.1 c hrun
  exact ⟨c, hrun, s, hfree, hindicators⟩

/-- The outcome-free simulation does not take the qubits of a Clifford gate into use: beyond its
tableau it panics where the outcome-complete simulation returns. -/
theorem not_outcomeFree_is_projection :
    ∃ ops : List SimulationOp, SimulationOp.WellFormedFrom 0 ops ∧
      (∃ c, OutcomeCompleteSimulation.run ops (OutcomeCompleteSimulation.new 1) = some c) ∧
        OutcomeFreeSimulation.run ops (OutcomeFreeSimulation.withCapacity 1 0 0) = none := by
  have hops : SimulationOp.WellFormedFrom 0
      [.unitary (.leftMulClifford (CliffordUnitary.identity 1) [1])] := by
    decide +kernel
  refine ⟨_, hops, ?_, rfl⟩
  have hstart := invariant_withCapacity 1 0 0
  obtain ⟨c, hrun, _⟩ := hstart.run hops (hstart.runFits
    (capacityFits_new 1) hops (by decide))
  exact ⟨c, hrun⟩

end QdkEc
