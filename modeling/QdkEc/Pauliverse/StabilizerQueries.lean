import QdkEc.Paulimer.PauliGroupStandardForm
import QdkEc.Pauliverse.OutcomeFreeRefinement
import QdkEc.Pauliverse.SimulationAgreement

/-!
# Stabilizer queries

This module models the queries that ask a simulation whether an observable
stabilizes its state: exactly, up to a sign, or with the sign that some recorded
outcomes give.  The answers are those of the stabilizer machine in every branch.
-/

namespace QdkEc

open PhasedPauli PauliUnitary StabilizerMachine

theorem PauliUnitary.phaseResidue_eq_twist_iff {e : UInt8} {b : Bool} :
    phaseResidue e = twist b ↔ phaseValue e % 2 = 0 ∧ (phaseValue e / 2 == 1) = b := by
  have hlt : phaseValue e < 4 := by exact Nat.mod_lt _ (by decide)
  rw [← phaseResidue_phaseValue e]
  generalize phaseValue e = v at hlt
  rcases PauliGroup.eq_of_lt_four hlt with rfl | rfl | rfl | rfl <;> cases b <;> decide

namespace OutcomeCompleteSimulation

/-- The observable stabilizes the state of every branch. -/
def isStabilizer (c : OutcomeCompleteSimulation) (observable : PauliUnitary) : Bool :=
  let preimage := c.clifford.preimage observable
  if preimage.xBits = 0 then
    rowSum c.signMatrix preimage.zBits.support == 0 && phaseValue preimage.xzPhaseExp == 0
  else false

/-- Some sign of the observable stabilizes the state. -/
def isStabilizerUpToSign (c : OutcomeCompleteSimulation) (observable : PauliUnitary) : Bool :=
  (c.clifford.preimage observable).xBits == 0

/-- The observable with the parity of some outcomes as its sign stabilizes the state; `none` is an
outcome out of range. -/
def isStabilizerWithConditionalSign (c : OutcomeCompleteSimulation) (observable : PauliUnitary)
    (outcomes : List ℕ) : Option Bool :=
  let preimage := c.clifford.preimage observable
  if preimage.xBits = 0 ∧ phaseValue preimage.xzPhaseExp % 2 = 0 then do
    let signParityIndicator := rowSum c.signMatrix preimage.zBits.support
    let shift := phaseValue preimage.xzPhaseExp / 2 == 1
    let expectedParity ← OutcomeParity.new c.outcomeMatrix c.outcomeShift outcomes
    some (signParityIndicator == expectedParity.branchMask && shift == expectedParity.constant)
  else some false

variable {n : ℕ} {c : OutcomeCompleteSimulation} (h : c.Invariant n) {observable : PauliUnitary}
variable (hp : observable.Below n)

include h hp

theorem Invariant.iPow_mul_mem_iff (r : Bits) (k : ZMod 4) :
    iPow k * observable.toPhased ∈ (c.machine r).stabilizers ↔
      (c.clifford.preimage observable).xBits = 0 ∧
        k + phaseResidue (c.clifford.preimage observable).xzPhaseExp = twist (Bits.dot
          (rowSum c.signMatrix (c.clifford.preimage observable).zBits.support) r) := by
  rw [dot_rowSum_support]
  change _ ∈ c.clifford.frame.stabilizers (c.signs r) ↔ _
  rw [GeneratorFrame.mem_stabilizers_iff, h.encodes.frame.lift_iPow_mul,
    ← CliffordUnitary.toPhased_preimage (h.encodes.below hp)]
  simp

/-- Two rows give the same sign in every branch only when they are equal. -/
theorem Invariant.forall_sign_mul_mem_iff (constant : Bool) (mask : Bits) :
    (∀ r, iPow (twist (constant ^^ Bits.dot mask r)) * observable.toPhased ∈
        (c.machine r).stabilizers) ↔
      (c.clifford.preimage observable).xBits = 0 ∧
        phaseResidue (c.clifford.preimage observable).xzPhaseExp = twist constant ∧
          rowSum c.signMatrix (c.clifford.preimage observable).zBits.support = mask := by
  simp only [h.iPow_mul_mem_iff hp]
  generalize phaseResidue (c.clifford.preimage observable).xzPhaseExp = k
  constructor
  · intro hall
    obtain ⟨hx, hphase⟩ := hall 0
    obtain rfl : k = twist constant := by
      rw [Bits.dot_zero_right, Bits.dot_zero_right, Bool.xor_false] at hphase
      rw [eq_neg_of_add_eq_zero_right hphase, neg_eq_of_add_eq_zero_right (twist_add_self _)]
    refine ⟨hx, rfl, Bits.ext_index fun i => ?_⟩
    have hunit := (hall (Bits.unit i)).2
    rw [twist_xor, add_right_comm, twist_add_self, zero_add, Bits.dot_unit_right,
      Bits.dot_unit_right] at hunit
    exact (twist_injective hunit).symm
  · rintro ⟨hx, rfl, rfl⟩ r
    exact ⟨hx, by rw [twist_xor, add_right_comm, twist_add_self, zero_add]⟩

theorem Invariant.isStabilizer_iff :
    c.isStabilizer observable = true ↔
      ∀ r, observable.toPhased ∈ (c.machine r).stabilizers := by
  have hall := h.forall_sign_mul_mem_iff hp false 0
  simp only [Bits.dot_zero_left, Bool.xor_false, twist_false, iPow_zero, one_mul] at hall
  rw [hall, isStabilizer]
  split_ifs with hx
  · simp [hx, phaseResidue_eq_zero_iff, phaseValue, and_comm]
  · simp [hx]

theorem Invariant.isStabilizerUpToSign_iff (r : Bits) :
    c.isStabilizerUpToSign observable = true ↔
      ∃ k, iPow k * observable.toPhased ∈ (c.machine r).stabilizers := by
  simp only [h.iPow_mul_mem_iff hp, exists_and_left, isStabilizerUpToSign, beq_iff_eq]
  exact ⟨fun hx => ⟨hx, _, sub_add_cancel _ _⟩, And.left⟩

theorem Invariant.isStabilizerWithConditionalSign_iff {ids : List ℕ}
    (hids : ∀ id ∈ ids, id < c.outcomeCount) :
    ∃ answer, c.isStabilizerWithConditionalSign observable ids = some answer ∧
      (answer = true ↔ ∀ r, iPow (twist (totalParity (c.machine r).outcomes ids)) *
        observable.toPhased ∈ (c.machine r).stabilizers) := by
  obtain ⟨control, hcontrol, -, hparity⟩ := h.outcomeParity hids
  have hall := h.forall_sign_mul_mem_iff hp control.constant control.branchMask
  simp only [← hparity] at hall
  rw [isStabilizerWithConditionalSign]
  split_ifs with hcases
  · refine ⟨_, by rw [hcontrol]; rfl, Iff.trans ?_ hall.symm⟩
    rw [phaseResidue_eq_twist_iff]
    simp [hcases, and_comm]
  · refine ⟨false, rfl, iff_of_false Bool.false_ne_true fun hmem => hcases ?_⟩
    obtain ⟨hx, hphase, -⟩ := hall.mp hmem
    exact ⟨hx, (phaseResidue_eq_twist_iff.mp hphase).1⟩

end OutcomeCompleteSimulation

namespace OutcomeSpecificSimulation

/-- The observable stabilizes the state. -/
def isStabilizer (s : OutcomeSpecificSimulation) (observable : PauliUnitary) : Bool :=
  let preimage := s.clifford.preimage observable
  preimage.xBits.support.length == 0 && phaseValue preimage.xzPhaseExp == 0

/-- The observable with the parity of some outcomes as its sign stabilizes the state. -/
def isStabilizerWithConditionalSign (s : OutcomeSpecificSimulation) (observable : PauliUnitary)
    (outcomes : List ℕ) : Option Bool := do
  let parity ← totalParity s.outcomeVector outcomes
  let preimage := s.clifford.preimage observable
  some (preimage.xBits.support.length == 0 && phaseValue preimage.xzPhaseExp % 2 == 0 &&
    ((phaseValue preimage.xzPhaseExp == 0) != parity))

variable {bits : ℕ → Bool} {n : ℕ} {s : OutcomeSpecificSimulation} (h : s.Invariant bits n)
variable {observable : PauliUnitary} (hp : observable.Below n)

include h hp

theorem Invariant.sign_mul_mem_iff (b : Bool) :
    iPow (twist b) * observable.toPhased ∈ s.machine.stabilizers ↔
      (s.clifford.preimage observable).xBits = 0 ∧
        phaseResidue (s.clifford.preimage observable).xzPhaseExp = twist b := by
  change _ ∈ s.clifford.frame.stabilizers 0 ↔ _
  rw [GeneratorFrame.mem_stabilizers_iff, h.encodes.frame.lift_iPow_mul,
    ← CliffordUnitary.toPhased_preimage (h.encodes.below hp)]
  generalize s.clifford.preimage observable = preimage
  have hphase (k : ZMod 4) : twist b + k = 0 ↔ k = twist b := by
    revert k
    cases b <;> decide
  simp [hphase]

theorem Invariant.isStabilizer_iff :
    s.isStabilizer observable = true ↔ observable.toPhased ∈ s.machine.stabilizers := by
  have hsign := h.sign_mul_mem_iff hp false
  rw [twist_false, iPow_zero, one_mul] at hsign
  simp [hsign, isStabilizer, phaseResidue_eq_zero_iff, phaseValue]

theorem Invariant.isStabilizerWithConditionalSign_iff {ids : List ℕ}
    (hids : ∀ id ∈ ids, id < s.outcomeCount) :
    s.isStabilizerWithConditionalSign observable ids = some true ↔
      iPow (twist (StabilizerMachine.totalParity s.machine.outcomes ids)) * observable.toPhased ∈
        s.machine.stabilizers := by
  rw [isStabilizerWithConditionalSign, h.totalParity hids, h.sign_mul_mem_iff hp,
    phaseResidue_eq_twist_iff]
  have hlt : phaseValue (s.clifford.preimage observable).xzPhaseExp < 4 := by
    exact Nat.mod_lt _ (by decide)
  dsimp only [Option.bind_eq_bind, Option.bind_some]
  generalize phaseValue (s.clifford.preimage observable).xzPhaseExp = v at hlt
  generalize StabilizerMachine.totalParity s.machine.outcomes ids = parity
  rcases PauliGroup.eq_of_lt_four hlt with rfl | rfl | rfl | rfl <;> cases parity <;> simp

end OutcomeSpecificSimulation

open OutcomeCompleteSimulation SimulationOp

/-- The answers of the outcome-complete simulation are about all branches at once: an observable is
a stabilizer when it is one in every branch, and a stabilizer with a conditional sign when every
branch gives it the sign of its own outcomes. -/
theorem stabilizerQueries_spec (qubitCount outcomeCount branchBitCount : ℕ)
    {ops : List SimulationOp} (hops : WellFormedFrom 0 ops) {c : OutcomeCompleteSimulation}
    (hrun : OutcomeCompleteSimulation.run ops
      (withCapacity qubitCount outcomeCount branchBitCount) = some c)
    {observable : PauliUnitary} (hp : observable.Below (qubitsInUse qubitCount ops)) :
    (c.isStabilizer observable = true ↔ ∀ r, observable.toPhased ∈ (c.machine r).stabilizers) ∧
      (∀ r, c.isStabilizerUpToSign observable = true ↔
        ∃ k, iPow k * observable.toPhased ∈ (c.machine r).stabilizers) ∧
      ∀ ids, (∀ id ∈ ids, id < c.outcomeCount) →
        ∃ answer, c.isStabilizerWithConditionalSign observable ids = some answer ∧
          (answer = true ↔ ∀ r, iPow (twist (totalParity (c.machine r).outcomes ids)) *
            observable.toPhased ∈ (c.machine r).stabilizers) := by
  have h := (invariant_withCapacity qubitCount outcomeCount branchBitCount).of_run hops hrun
  exact ⟨h.isStabilizer_iff hp, h.isStabilizerUpToSign_iff hp,
    fun ids hids => h.isStabilizerWithConditionalSign_iff hp hids⟩

/-- A random measurement that is repeated. -/
def measuredTwice : List SimulationOp :=
  [.measure (PauliUnitary.x 0), .measure (PauliUnitary.x 0)]

theorem runFits_measuredTwice : (withCapacity 1 0 0).RunFits measuredTwice :=
  (invariant_withCapacity 1 0 0).runFits (capacityFits_new 1) (by decide) (by decide)

theorem stabilizerQueries_spec_measuredTwice :
    ∃ c, OutcomeCompleteSimulation.run measuredTwice (withCapacity 1 0 0) = some c ∧
      (c.isStabilizer (PauliUnitary.x 0) = true ↔
        ∀ r, (PauliUnitary.x 0).toPhased ∈ (c.machine r).stabilizers) := by
  obtain ⟨c, hrun, -⟩ := (invariant_withCapacity 1 0 0).run (by decide) runFits_measuredTwice
  exact ⟨c, hrun, (stabilizerQueries_spec 1 0 0 (by decide) hrun (by decide)).1⟩

/-- The outcome-free simulation knows the stabilizers of all branches up to their signs. -/
theorem outcomeFree_isStabilizerUpToSign (qubitCount outcomeCount branchBitCount : ℕ)
    {ops : List SimulationOp} (hops : WellFormedFrom 0 ops)
    (hinUse : OutcomeFreeSimulation.InUseFrom qubitCount ops) {c : OutcomeCompleteSimulation}
    (hrun : OutcomeCompleteSimulation.run ops
      (withCapacity qubitCount outcomeCount branchBitCount) = some c) :
    ∃ s, OutcomeFreeSimulation.run ops
        (OutcomeFreeSimulation.withCapacity qubitCount outcomeCount branchBitCount) = some s ∧
      ∀ observable : PauliUnitary, observable.Below (qubitsInUse qubitCount ops) → ∀ r,
        (s.isStabilizerUpToSign observable = true ↔
          ∃ k, iPow k * observable.toPhased ∈ (c.machine r).stabilizers) := by
  have hfree := (hasRoom_withCapacity qubitCount outcomeCount branchBitCount).run hinUse hrun
  rw [projection_withCapacity] at hfree
  refine ⟨c.projection, hfree, fun observable hp r => ?_⟩
  have h := (invariant_withCapacity qubitCount outcomeCount branchBitCount).of_run hops hrun
  rw [← h.isStabilizerUpToSign_iff hp r]
  change ((c.clifford.projective.preimage observable.projective).xBits == 0) = true ↔ _
  rw [← CliffordUnitary.projective_preimage]
  rfl

theorem outcomeFree_isStabilizerUpToSign_measuredTwice :
    ∃ c s, OutcomeCompleteSimulation.run measuredTwice (withCapacity 1 0 0) = some c ∧
      OutcomeFreeSimulation.run measuredTwice (OutcomeFreeSimulation.withCapacity 1 0 0) = some s ∧
      ∀ observable : PauliUnitary, observable.Below 1 → ∀ r,
        (s.isStabilizerUpToSign observable = true ↔
          ∃ k, iPow k * observable.toPhased ∈ (c.machine r).stabilizers) := by
  obtain ⟨c, hrun, -⟩ := (invariant_withCapacity 1 0 0).run (by decide) runFits_measuredTwice
  obtain ⟨s, hfree, hquery⟩ :=
    outcomeFree_isStabilizerUpToSign 1 0 0 (by decide) (by decide) hrun
  exact ⟨c, s, hrun, hfree, hquery⟩

/-- The simulations agree on stabilizers: the outcome-complete one answers yes exactly when the
outcome-specific one does in every branch. -/
theorem stabilizerQueries_agree (qubitCount outcomeCount branchBitCount : ℕ)
    {ops : List SimulationOp} (hops : WellFormedFrom 0 ops)
    (hfits : (withCapacity qubitCount outcomeCount branchBitCount).RunFits ops)
    {observable : PauliUnitary} (hp : observable.Below (qubitsInUse qubitCount ops)) :
    ∃ (c : OutcomeCompleteSimulation) (s : Bits → OutcomeSpecificSimulation),
      OutcomeCompleteSimulation.run ops
        (withCapacity qubitCount outcomeCount branchBitCount) = some c ∧
      (∀ r, OutcomeSpecificSimulation.run ops
        (OutcomeSpecificSimulation.newWithBitSource qubitCount r.index) = some (s r)) ∧
      (c.isStabilizer observable = true ↔ ∀ r, (s r).isStabilizer observable = true) ∧
      ∀ ids, (∀ id ∈ ids, id < c.outcomeCount) →
        (c.isStabilizerWithConditionalSign observable ids = some true ↔
          ∀ r, (s r).isStabilizerWithConditionalSign observable ids = some true) := by
  have hstart := invariant_withCapacity qubitCount outcomeCount branchBitCount
  obtain ⟨c, hrun, hc, hmachine⟩ := hstart.run hops hfits
  have hinUse := hstart.inUseFrom hops hfits
  choose s hrun' hs hmachine' using fun r : Bits =>
    (OutcomeSpecificSimulation.invariant_newWithBitSource qubitCount r.index).run hops hinUse
  have hsame : ∀ r, (s r).machine = c.machine r := by
    intro r
    rw [hmachine', hmachine]
    congr 1
    refine StabilizerMachine.ext ?_ rfl rfl
    refine congrArg (GeneratorFrame.stabilizers _) (Bits.ext_index fun i => ?_)
    simp [withCapacity]
  refine ⟨c, s, hrun, hrun', ?_, fun ids hids => ?_⟩
  · rw [hc.isStabilizer_iff hp]
    exact forall_congr' fun r => by rw [(hs r).isStabilizer_iff hp, hsame]
  · obtain ⟨answer, hanswer, hiff⟩ := hc.isStabilizerWithConditionalSign_iff hp hids
    rw [hanswer, Option.some_inj, hiff]
    refine forall_congr' fun r => ?_
    have hcount : (s r).outcomeCount = c.outcomeCount :=
      congrArg (·.introducesBranchBit.length) (hsame r)
    rw [(hs r).isStabilizerWithConditionalSign_iff hp (hcount ▸ hids), hsame]

theorem stabilizerQueries_agree_measuredTwice :
    ∃ (c : OutcomeCompleteSimulation) (s : Bits → OutcomeSpecificSimulation),
      OutcomeCompleteSimulation.run measuredTwice (withCapacity 1 0 0) = some c ∧
        (c.isStabilizer (PauliUnitary.x 0) = true ↔
          ∀ r, (s r).isStabilizer (PauliUnitary.x 0) = true) := by
  obtain ⟨c, s, hrun, -, hstabilizer, -⟩ := stabilizerQueries_agree 1 0 0 (by decide)
    runFits_measuredTwice (show (PauliUnitary.x 0).Below 1 by decide)
  exact ⟨c, s, hrun, hstabilizer⟩

end QdkEc
