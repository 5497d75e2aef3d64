import QdkEc.Pauliverse.OutcomeCompleteRefinement
import QdkEc.Pauliverse.OutcomeSpecificRefinement

/-!
# Agreement of the simulations and the measurement postulates

This module compares one run of `OutcomeCompleteSimulation` with the runs of
`OutcomeSpecificSimulation` in all branches, and proves that measurements meet
the measurement postulates in every reachable state of both.
-/

namespace QdkEc

open PhasedPauli OutcomeCompleteSimulation

theorem CliffordUnitary.Encodes.coe_signedGroup_imageZ {n : ℕ} {C : CliffordUnitary}
    (h : C.Encodes n) (σ : Bits) :
    (signedGroup n (fun i => (C.imageZ i).toPhased) σ.index : Set PhasedPauli) =
      {p | p ∈ C.frame.stabilizers σ ∧ p.Below n} :=
  h.frame.coe_signedGroup h.fixesFrom
    (fun _ hi => CliffordUnitary.toPhased_imageZ h.frame (lt_of_lt_of_le hi h.le)) σ

/-- The simulations agree in every branch of a run that fits.  The outcome-complete simulation
returns, and for every assignment of the branch bits the outcome-specific one returns with the same
random-outcome indicators, the outcome vector of that branch and the stabilizer group that the sign
matrix gives in that branch. -/
theorem outcomeSpecific_agrees_in_every_branch (qubitCount outcomeCount branchBitCount : ℕ)
    (ops : List SimulationOp) (hops : SimulationOp.WellFormedFrom 0 ops)
    (hfits : (OutcomeCompleteSimulation.withCapacity qubitCount outcomeCount
      branchBitCount).RunFits ops) : ∃ c, OutcomeCompleteSimulation.run ops
        (OutcomeCompleteSimulation.withCapacity qubitCount outcomeCount branchBitCount) = some c ∧
      ∀ r : Bits, ∃ s, OutcomeSpecificSimulation.run ops
          (OutcomeSpecificSimulation.newWithBitSource qubitCount r.index) = some s ∧
        s.outcomeIntroducesBranchBit = c.outcomeIntroducesBranchBit ∧
        s.outcomeVector = c.outcomeVector r ∧
        signedGroup s.qubitCount (fun i => (s.clifford.imageZ i).toPhased) (fun _ => false) =
          signedGroup c.qubitCount (fun i => (c.clifford.imageZ i).toPhased)
            (fun i => Bits.dot (c.signMatrix.row i) r) := by
  have hstart := invariant_withCapacity qubitCount outcomeCount
    branchBitCount
  obtain ⟨c, hrun, hc, hmachine⟩ := hstart.run hops hfits
  have hinUse := hstart.inUseFrom hops hfits
  refine ⟨c, hrun, fun r => ?_⟩
  obtain ⟨s, hrun', hs, hmachine'⟩ :=
    (OutcomeSpecificSimulation.invariant_newWithBitSource qubitCount r.index).run hops hinUse
  have hsame : s.machine = c.machine r := by
    rw [hmachine', hmachine]
    congr 1
    refine StabilizerMachine.ext ?_ rfl rfl
    refine congrArg (GeneratorFrame.stabilizers _) (Bits.ext_index fun i => ?_)
    simp [withCapacity]
  have hcount : s.qubitCount = c.qubitCount := by
    rw [OutcomeSpecificSimulation.qubitCount_run hinUse hrun', hc.qubitCount_eq]
    rfl
  refine ⟨s, hrun', congrArg (·.introducesBranchBit) hsame, congrArg (·.outcomes) hsame, ?_⟩
  have hsigns : (fun i => Bits.dot (c.signMatrix.row i) r) = (c.signs r).index :=
    funext fun i => (c.index_signs r i).symm
  have hzero : (fun _ => false) = (0 : Bits).index := funext fun i => (Bits.index_zero i).symm
  rw [hcount, hc.qubitCount_eq, hsigns, hzero]
  apply SetLike.coe_injective
  rw [hs.encodes.coe_signedGroup_imageZ, hc.encodes.coe_signedGroup_imageZ]
  exact congrArg (fun m : StabilizerMachine =>
    {p | p ∈ m.stabilizers ∧ p.Below (SimulationOp.qubitsInUse qubitCount ops)}) hsame

/-- A circuit with a gate, random and determined measurements and feed-forward. -/
theorem outcomeSpecific_agrees_on_feedForward : ∃ c, OutcomeCompleteSimulation.run
        [.unitary (.leftMul .Hadamard [0]), .measure (PauliUnitary.z 0),
          .conditionalPauli (PauliUnitary.x 0) [0] true, .measure (PauliUnitary.z 0)]
        (OutcomeCompleteSimulation.withCapacity 1 0 0) = some c ∧
      ∀ r : Bits, ∃ s, OutcomeSpecificSimulation.run
          [.unitary (.leftMul .Hadamard [0]), .measure (PauliUnitary.z 0),
            .conditionalPauli (PauliUnitary.x 0) [0] true, .measure (PauliUnitary.z 0)]
          (OutcomeSpecificSimulation.newWithBitSource 1 r.index) = some s ∧
        s.outcomeIntroducesBranchBit = c.outcomeIntroducesBranchBit ∧
        s.outcomeVector = c.outcomeVector r ∧
        signedGroup s.qubitCount (fun i => (s.clifford.imageZ i).toPhased) (fun _ => false) =
          signedGroup c.qubitCount (fun i => (c.clifford.imageZ i).toPhased)
            (fun i => Bits.dot (c.signMatrix.row i) r) :=
  outcomeSpecific_agrees_in_every_branch 1 0 0 _ (by decide)
    ((invariant_withCapacity 1 0 0).runFits
      (capacityFits_new 1) (by decide) (by decide))

/-- The specific simulation does not take the qubits of a conditional Pauli into use: beyond its
tableau it panics where the complete simulation returns. -/
theorem not_outcomeSpecific_agrees_in_every_branch :
    ∃ ops : List SimulationOp, SimulationOp.WellFormedFrom 0 ops ∧
      (∃ c, OutcomeCompleteSimulation.run ops (OutcomeCompleteSimulation.new 1) = some c) ∧
        ∀ r : Bits, OutcomeSpecificSimulation.run ops
          (OutcomeSpecificSimulation.newWithBitSource 1 r.index) = none := by
  refine ⟨[.conditionalPauli (PauliUnitary.x 1) [] false], by decide, ?_, fun r => rfl⟩
  have hstart := invariant_withCapacity 1 0 0
  obtain ⟨c, hconditional, _⟩ := hstart.conditionalPauli (PauliUnitary.x 1)
    (show ∀ id ∈ [], id < _ by simp) false
  exact ⟨c, congrArg (Option.bind · some) hconditional⟩

theorem OutcomeCompleteSimulation.Invariant.machine_add_unit {n : ℕ} {c : OutcomeCompleteSimulation}
    (h : c.Invariant n) (r : Bits) : c.machine (r + Bits.unit c.branchBitCount) = c.machine r := by
  have hfresh : ∀ {row : Bits}, row.Below c.branchBitCount →
      Bits.dot row (r + Bits.unit c.branchBitCount) = Bits.dot row r := by
    intro row hrow
    rw [Bits.dot_add_right, Bits.dot_unit_right, hrow.index_eq_false le_rfl, Bool.xor_false]
  refine StabilizerMachine.ext ?_ ?_ rfl
  · refine congrArg c.clifford.frame.stabilizers (Bits.ext_index fun i => ?_)
    rw [index_signs, index_signs, hfresh (h.signRow_below i)]
  · refine List.map_congr_left fun id _ => ?_
    rw [hfresh (h.outcomeRow_below id)]

/-- Measurements meet the postulates in every reachable state.  A measurement of an observable
of order two meets them in every branch of an outcome-complete simulation exactly when the
capacities that it requests pass the assertion, and always in an outcome-specific simulation. -/
theorem measure_meets_postulates (qubitCount outcomeCount branchBitCount : ℕ)
    (ops : List SimulationOp) (hops : SimulationOp.WellFormedFrom 0 ops) (observable : PauliUnitary)
    (hobservable : observable.isOrderTwo = true) :
    (∀ c, OutcomeCompleteSimulation.run ops (OutcomeCompleteSimulation.withCapacity qubitCount
          outcomeCount branchBitCount) = some c →
        ((∃ c' c'', c.measure observable = some c' ∧ c'.measure observable = some c'' ∧
          (∀ r, c.machine (r + Bits.unit c.branchBitCount) = c.machine r) ∧
            ∀ r, StabilizerMachine.MeasurementPostulates r.index observable.toPhased
              (c.machine r) (c'.machine r) (c''.machine r)) ↔ c.MeasureOk observable.toPhased)) ∧
      ∀ bits s, OutcomeSpecificSimulation.run ops
          (OutcomeSpecificSimulation.newWithBitSource qubitCount bits) = some s →
        ∃ s' s'', s.measure observable = some s' ∧ s'.measure observable = some s'' ∧
          StabilizerMachine.MeasurementPostulates bits observable.toPhased
            s.machine s'.machine s''.machine := by
  have htwo := PauliUnitary.isOrderTwo_iff.mp hobservable
  constructor
  · intro c hrun
    have hc := (invariant_withCapacity qubitCount outcomeCount
      branchBitCount).of_run hops hrun
    constructor
    · rintro ⟨c', _, hmeasure, _⟩
      by_contra hrefused
      rw [hc.measure_eq_none htwo hrefused] at hmeasure
      cases hmeasure
    · intro hok
      obtain ⟨c', hmeasure, hc', hmachine, _, hroom⟩ := hc.measure htwo hok
      have hpostulates : ∀ r, StabilizerMachine.MeasurementPostulates r.index observable.toPhased
          (c.machine r) (c'.machine r)
            ((c'.machine r).measure r.index observable.toPhased) := by
        intro r
        have hgroup := hc.encodes.frame.isStabilizerGroup hc.encodes.fixesFrom (c.signs r)
        have hgroup' := hc'.encodes.frame.isStabilizerGroup hc'.encodes.fixesFrom (c'.signs r)
        rw [hmachine]
        refine StabilizerMachine.measurementPostulates_measure hgroup hgroup' r.index htwo rfl ?_
        rw [← hmachine]
        rfl
      have hdetermined : Determined (c'.machine 0).stabilizers observable.toPhased := by
        obtain ⟨outcome, _, hmem, _⟩ := (hpostulates 0).repeated
        exact ⟨outcome, hmem⟩
      obtain ⟨c'', hmeasure', _, hmachine', _⟩ := hc'.measure htwo
        ⟨fun _ => hroom, fun hnot => absurd hdetermined hnot⟩
      refine ⟨c', c'', hmeasure, hmeasure', hc.machine_add_unit, fun r => ?_⟩
      rw [hmachine']
      exact hpostulates r
  · intro bits s hrun
    obtain ⟨⟨n, hs⟩, _⟩ := (OutcomeSpecificSimulation.invariant_newWithBitSource qubitCount
      bits).of_run hops hrun
    obtain ⟨s', hmeasure, hs', hmachine⟩ := hs.measure hobservable
    obtain ⟨s'', hmeasure', hs'', hmachine'⟩ := hs'.measure hobservable
    refine ⟨s', s'', hmeasure, hmeasure', ?_⟩
    rw [hmachine', hmachine]
    have hafter := hs'.encodes.frame.isStabilizerGroup hs'.encodes.fixesFrom 0
    refine StabilizerMachine.measurementPostulates_measure
      (hs.encodes.frame.isStabilizerGroup hs.encodes.fixesFrom 0) hafter bits htwo rfl ?_
    rw [← hmachine]
    rfl

/-- A random measurement after a Hadamard gate. -/
theorem measure_meets_postulates_after_hadamard :
    (∀ c, OutcomeCompleteSimulation.run [.unitary (.leftMul .Hadamard [0])]
          (OutcomeCompleteSimulation.withCapacity 1 0 0) = some c →
        ((∃ c' c'', c.measure (PauliUnitary.z 0) = some c' ∧
          c'.measure (PauliUnitary.z 0) = some c'' ∧
          (∀ r, c.machine (r + Bits.unit c.branchBitCount) = c.machine r) ∧
            ∀ r, StabilizerMachine.MeasurementPostulates r.index (PauliUnitary.z 0).toPhased
              (c.machine r) (c'.machine r) (c''.machine r)) ↔
          c.MeasureOk (PauliUnitary.z 0).toPhased)) ∧
      ∀ bits s, OutcomeSpecificSimulation.run [.unitary (.leftMul .Hadamard [0])]
          (OutcomeSpecificSimulation.newWithBitSource 1 bits) = some s →
        ∃ s' s'', s.measure (PauliUnitary.z 0) = some s' ∧
          s'.measure (PauliUnitary.z 0) = some s'' ∧
          StabilizerMachine.MeasurementPostulates bits (PauliUnitary.z 0).toPhased
            s.machine s'.machine s''.machine :=
  measure_meets_postulates 1 0 0 _ (by decide) (PauliUnitary.z 0) (by decide)

/-- With more room for branch bits than for outcomes, the first measurement panics. -/
theorem not_measure_meets_postulates : (PauliUnitary.z 0).isOrderTwo = true ∧
      (OutcomeCompleteSimulation.withCapacity 1 0 513).measure (PauliUnitary.z 0) = none := by
  refine ⟨by decide, ?_⟩
  have hstart := invariant_withCapacity 1 0 513
  have hrefused : ∀ random,
      ¬ (withCapacity 1 0 513).ReserveOk random := by
    intro random
    simp [OutcomeCompleteSimulation.ReserveOk, newBranchBitCapacity,
      newOutcomeCapacity, branchBitCapacity,
      outcomeCapacity, outcomeCount,
      withCapacity, minCapacity]
  refine hstart.measure_eq_none (PauliUnitary.isOrderTwo_iff.mp (by decide)) fun hok => ?_
  by_cases hdetermined : Determined ((withCapacity 1 0 513).machine
      0).stabilizers (PauliUnitary.z 0).toPhased
  · exact hrefused false (hok.1 hdetermined)
  · exact hrefused true (hok.2 hdetermined)

end QdkEc
