import QdkEc.Pauliverse.FaultReplay

/-!
# The distribution of sampled outcomes

This module proves that the outcome vectors of a shot have the probabilities of the
direct simulation with the Paulis of the shot inserted, when every permutation meets a
frame that it may move, and shows that a cyclic permutation breaks this.
-/

namespace QdkEc

open PhasedPauli OutcomeCompleteSimulation

theorem branchProbability_eq_of_flips {branchBitCount : ℕ} {outcomes outcomes' : Bits → List Bool}
    {flips : Bits} (hflips : flips.Below branchBitCount)
    (houtcomes : ∀ r, outcomes' (r + flips) = outcomes r) (vector : List Bool) :
    branchProbability branchBitCount outcomes vector =
      branchProbability branchBitCount outcomes' vector := by
  have hback : ∀ r, r + flips + flips = r := by
    intro r
    rw [add_assoc, Bits.add_self, add_zero]
  have hbelow : ∀ branch, branch < 2 ^ branchBitCount →
      ((⟨branch⟩ : Bits) + flips).mask < 2 ^ branchBitCount := by
    intro branch hbranch
    have hbits : (⟨branch⟩ : Bits).Below branchBitCount := hbranch
    exact hbits.add hflips
  rw [branchProbability, branchProbability]
  congr 2
  refine Finset.card_nbij' (fun branch => ((⟨branch⟩ : Bits) + flips).mask)
    (fun branch => ((⟨branch⟩ : Bits) + flips).mask) ?_ ?_ ?_ ?_
  · intro branch hbranch
    simp only [Finset.coe_filter, Finset.mem_range, Set.mem_ofPred_eq] at hbranch ⊢
    exact ⟨hbelow branch hbranch.1, (houtcomes ⟨branch⟩).trans hbranch.2⟩
  · intro branch hbranch
    simp only [Finset.coe_filter, Finset.mem_range, Set.mem_ofPred_eq] at hbranch ⊢
    refine ⟨hbelow branch hbranch.1, ?_⟩
    rw [← houtcomes, hback]
    exact hbranch.2
  · exact fun branch _ => congrArg Bits.mask (hback ⟨branch⟩)
  · exact fun branch _ => congrArg Bits.mask (hback ⟨branch⟩)

namespace FaultySimulation

variable {K : Type} {simulation : FaultySimulation K}

/-- Before the first call nothing differs. -/
theorem tracks_start (qubitCount outcomeCount branchBitCount : ℕ) {n rows shotCount shot : ℕ}
    (hshot : shot < shotCount) :
    Tracks n rows shot (.withCapacity qubitCount outcomeCount branchBitCount) (.new 0)
      (.new n rows shotCount) := by
  refine ⟨invariant_withCapacity _ _ _, invariant_withCapacity _ _ _,
    capacityFits_new 0, FramePropagator.sized_new _ _ _, hshot, rfl,
    AlignedBitMatrix.rowCount_zeros _ _, fun id _ => AlignedBitMatrix.row_zeros _ _ id, 1,
    FramePropagator.carries_new _ _ _ _, fun r r' _ => ⟨?_, rfl, rfl⟩⟩
  have hsigns : (OutcomeCompleteSimulation.withCapacity qubitCount outcomeCount
      branchBitCount).signs r = (OutcomeCompleteSimulation.new 0).signs r' := by
    refine Bits.ext_index fun i => ?_
    rw [index_signs, index_signs]
    have hzero : ∀ n rows columns, (AlignedBitMatrix.zeros n columns).row rows = 0 :=
      fun n rows columns => AlignedBitMatrix.row_zeros n columns rows
    rw [OutcomeCompleteSimulation.new, OutcomeCompleteSimulation.withCapacity,
      OutcomeCompleteSimulation.withCapacity, hzero, hzero, Bits.dot_zero_left,
      Bits.dot_zero_left]
  have hmachine : ((OutcomeCompleteSimulation.new 0).machine r').stabilizers =
      ((OutcomeCompleteSimulation.withCapacity qubitCount outcomeCount
        branchBitCount).machine r).stabilizers := by
    simp only [machine, hsigns]
    rw [OutcomeCompleteSimulation.new, OutcomeCompleteSimulation.withCapacity,
      OutcomeCompleteSimulation.withCapacity, CliffordUnitary.frame_identity,
      CliffordUnitary.frame_identity]
  rw [hmachine]
  ext p
  simp [conjugate_apply]

theorem exists_call_of_run {qubitCount outcomeCount branchBitCount : ℕ}
    {calls : List (FaultyCall K)}
    (hrun : run calls (withCapacity qubitCount outcomeCount branchBitCount) = some simulation) :
    ∀ instruction, .op instruction ∈ simulation.circuit →
      ∃ op id, .op op ∈ calls ∧ instruction = op.instruction id := by
  refine foldlM_induction (fun done simulation => ∀ instruction,
    .op instruction ∈ simulation.circuit → ∃ op id, .op op ∈ done ∧
      instruction = op.instruction id) nofun ?_ hrun
  intro done call before after hbefore happly instruction hmem
  have hkeep : .op instruction ∈ before.circuit → ∃ op id, .op op ∈ done ++ [call] ∧
      instruction = op.instruction id := by
    intro hmem
    obtain ⟨op, id, hop, heq⟩ := hbefore instruction hmem
    exact ⟨op, id, List.mem_append_left _ hop, heq⟩
  cases call with
  | op op =>
    obtain ⟨noiseless, -, rfl⟩ := Option.map_eq_some_iff.mp happly
    rcases List.mem_append.mp hmem with hmem | hmem
    · exact hkeep hmem
    · cases List.mem_singleton.mp hmem
      exact ⟨op, _, by simp, rfl⟩
  | applyFault fault =>
    cases happly
    rcases List.mem_append.mp hmem with hmem | hmem
    · exact hkeep hmem
    · cases List.mem_singleton.mp hmem
  | reserveQubits newQubitCapacity =>
    obtain ⟨noiseless, -, rfl⟩ := Option.map_eq_some_iff.mp happly
    exact hkeep hmem
  | reserveOutcomes newOutcomeCapacity newBranchBitCapacity =>
    obtain ⟨noiseless, -, rfl⟩ := Option.map_eq_some_iff.mp happly
    exact hkeep hmem

theorem replayMovesAlike_of_involutions {faults : FaultRealisation} {shot : ℕ}
    {circuit : List (FaultyInstruction K)} (hcircuit : ∀ instruction, .op instruction ∈ circuit →
      FramePropagator.PermutesByInvolution instruction) (location : ℕ) (F : FramePropagator) :
    F.ReplayMovesAlike faults shot location circuit := by
  induction circuit generalizing location F with
  | nil => trivial
  | cons first rest ih =>
    have hrest : ∀ instruction, .op instruction ∈ rest →
        FramePropagator.PermutesByInvolution instruction := fun instruction hmem =>
      hcircuit instruction (List.mem_cons_of_mem _ hmem)
    cases first with
    | op instruction =>
      refine ⟨?_, ih hrest location _⟩
      have hinvolution := hcircuit instruction List.mem_cons_self
      cases instruction with
      | permute permutation qubits =>
        exact FramePropagator.fixedByTwo_of_isInvolution hinvolution
      | _ => trivial
    | noise fault => exact ih hrest (location + 1) _

/-- Sampled outcomes have the probabilities of the direct simulation with the Paulis of the shot
inserted, when every permutation meets a frame that it may move. -/
theorem sampledProbability_eq {qubitCount outcomeCount branchBitCount : ℕ}
    {calls : List (FaultyCall K)}
    (hcalls : SimulationOp.WellFormedFrom 0 (calls.filterMap FaultyCall.operation))
    (hrun : run calls (withCapacity qubitCount outcomeCount branchBitCount) = some simulation)
    {faults : FaultRealisation} (hfaults : faults.InUse simulation.noiseless.qubitCount)
    {shotCount shot : ℕ} (hshot : shot < shotCount)
    (hmoves : (simulation.propagator shotCount).ReplayMovesAlike faults shot 0 simulation.circuit) :
    ∃ direct, OutcomeCompleteSimulation.run (withFaults faults shot 0 calls) (.new 0) =
        some direct ∧ ∀ vector, simulation.sampledProbability faults shotCount shot vector =
        direct.probability vector := by
  obtain ⟨circuit, hcircuit, htracks⟩ := tracks_run shot 0 (by exact hcalls) hrun hfaults
  obtain rfl : simulation.circuit = circuit := hcircuit
  obtain ⟨direct, hdirect, h⟩ := htracks (tracks_start qubitCount outcomeCount branchBitCount hshot)
    hmoves
  refine ⟨direct, hdirect, fun vector => ?_⟩
  obtain ⟨frame, -, hframed⟩ := h.framed
  obtain ⟨flips, hflips, hmatching⟩ := exists_matchingBits
    simulation.noiseless.outcomeIntroducesBranchBit
    (simulation.outcomeDeltas faults shotCount shot)
  rw [← h.noiseless.branchBitCount_eq] at hflips
  have hcount : direct.branchBitCount = simulation.noiseless.branchBitCount := by
    rw [h.direct.branchBitCount_eq, h.introducesBranchBit_eq, h.noiseless.branchBitCount_eq]
  rw [sampledProbability, probability, hcount]
  refine branchProbability_eq_of_flips hflips (fun r => ?_) vector
  exact (hframed r (r + flips) (hmatching r)).outcomes

/-- The certain bit flip of the first qubit, in the only shot. -/
def flipFirst : FaultRealisation :=
  fun _ _ => some (PauliUnitary.x 0)

/-- A random measurement, a flip, and a measurement with feed-forward. -/
def feedForwardCalls : List (FaultyCall ℚ) :=
  [.op (.unitary (.leftMul .Hadamard [0])), .applyFault certainFlip,
    .op (.measure (PauliUnitary.z 0)), .op (.conditionalPauli (PauliUnitary.x 0) [0] true),
    .op (.measure (PauliUnitary.z 0))]

theorem isSome_run_feedForwardCalls :
    (run feedForwardCalls (withCapacity 1 0 0)).isSome = true := by
  decide +kernel

/-- A flip before a measurement with feed-forward. -/
theorem sampledProbability_eq_feedForward :
    ∃ simulation, run feedForwardCalls (withCapacity 1 0 0) = some simulation ∧
      ∃ direct, OutcomeCompleteSimulation.run (withFaults flipFirst 0 0 feedForwardCalls)
          (.new 0) = some direct ∧ ∀ vector, simulation.sampledProbability flipFirst 1 0 vector =
          direct.probability vector := by
  obtain ⟨simulation, hrun⟩ := Option.isSome_iff_exists.mp isSome_run_feedForwardCalls
  refine ⟨simulation, hrun, sampledProbability_eq (by decide) hrun ?_ Nat.zero_lt_one ?_⟩
  · intro location shot pauli hpauli
    have hcount : 1 ≤ simulation.noiseless.qubitCount := (grows_run hrun).1
    have hbelow : (PauliUnitary.x 0).Below 1 := by decide
    cases hpauli
    exact ⟨hbelow.1.mono hcount, hbelow.2.mono hcount⟩
  · refine replayMovesAlike_of_involutions (fun instruction hmem => ?_) 0 _
    obtain ⟨op, id, hop, rfl⟩ := exists_call_of_run hrun instruction hmem
    simp only [feedForwardCalls, List.mem_cons, FaultyCall.op.injEq, reduceCtorEq, false_or,
      List.not_mem_nil, or_false] at hop
    rcases hop with rfl | rfl | rfl | rfl <;> trivial

/-- A flip and a cyclic permutation before a measurement. -/
def cycleCalls : List (FaultyCall ℚ) :=
  [.applyFault certainFlip, .op (.unitary (.leftMulPermutation [2, 0, 1] [0, 1, 2])),
    .op (.measure (PauliUnitary.z 1))]

theorem branchProbability_zero (outcomes : Bits → List Bool) (vector : List Bool) :
    branchProbability 0 outcomes vector = if outcomes 0 = vector then 1 else 0 := by
  have hrange : Finset.range (2 ^ 0) = {0} := rfl
  rw [branchProbability, hrange, Finset.filter_singleton]
  change ((if outcomes 0 = vector then ({0} : Finset ℕ) else ∅).card : ℚ) / 2 ^ 0 = _
  split_ifs <;> norm_num

/-- A cyclic permutation moves the flip to another qubit: the sampled outcome is certain, and
the direct simulation never has it. -/
theorem not_sampledProbability_eq :
    ¬ ∀ (calls : List (FaultyCall ℚ)) (simulation : FaultySimulation ℚ),
      SimulationOp.WellFormedFrom 0 (calls.filterMap FaultyCall.operation) →
        run calls (new ℚ) = some simulation →
          ∀ faults : FaultRealisation, faults.InUse simulation.noiseless.qubitCount →
            ∀ shotCount shot, shot < shotCount → ∀ direct,
              OutcomeCompleteSimulation.run (withFaults faults shot 0 calls) (.new 0) =
                some direct → ∀ vector, simulation.sampledProbability faults shotCount shot vector =
                  direct.probability vector := by
  intro h
  have hsimulation : (run cycleCalls (new ℚ)).map (fun simulation =>
      (simulation.noiseless.qubitCount, simulation.noiseless.branchBitCount,
        simulation.sampledOutcomes flipFirst 1 0 0)) = some (3, 0, [false]) := by
    decide +kernel
  have hdirect : (OutcomeCompleteSimulation.run (withFaults flipFirst 0 0 cycleCalls)
      (.new 0)).map (fun direct => (direct.branchBitCount, direct.outcomeVector 0)) =
        some (0, [true]) := by
    decide +kernel
  obtain ⟨simulation, hrun, hsimulation⟩ := Option.map_eq_some_iff.mp hsimulation
  obtain ⟨direct, hrun', hdirect⟩ := Option.map_eq_some_iff.mp hdirect
  simp only [Prod.mk.injEq] at hsimulation hdirect
  obtain ⟨hqubits, hbits, houtcomes⟩ := hsimulation
  obtain ⟨hbits', houtcomes'⟩ := hdirect
  have hfaults : flipFirst.InUse simulation.noiseless.qubitCount := by
    intro location shot pauli hpauli
    cases hpauli
    rw [hqubits]
    decide
  have heq := h cycleCalls simulation (by decide) hrun flipFirst hfaults 1 0 Nat.zero_lt_one direct
    hrun' [false]
  rw [sampledProbability, probability, hbits, hbits',
    branchProbability_zero, branchProbability_zero, houtcomes, houtcomes', if_pos rfl,
    if_neg (by decide)] at heq
  exact one_ne_zero heq

end FaultySimulation

end QdkEc
