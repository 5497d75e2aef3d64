import QdkEc.Pauliverse.Simulation

/-!
# Outcome-specific simulation

This module models `OutcomeSpecificSimulation`, which follows one branch with a
concrete tableau, and proves that each of its operations refines the stabilizer
machine.
-/

namespace QdkEc

open PhasedPauli

/-- A simulation of one branch; the bit source holds the samples not yet drawn. -/
structure OutcomeSpecificSimulation where
  clifford : CliffordUnitary
  outcomeVector : List Bool
  bitSource : ℕ → Bool
  outcomeIntroducesBranchBit : List Bool
  numBranchBits : ℕ
  qubitCount : ℕ

namespace OutcomeSpecificSimulation

def newWithBitSource (numQubits : ℕ) (bitSource : ℕ → Bool) : OutcomeSpecificSimulation where
  clifford := CliffordUnitary.identity numQubits
  outcomeVector := []
  bitSource := bitSource
  outcomeIntroducesBranchBit := []
  numBranchBits := 0
  qubitCount := numQubits

/-- The number of qubits of the tableau. -/
def qubitCapacity (s : OutcomeSpecificSimulation) : ℕ :=
  s.clifford.numQubits

/-- The number of recorded outcomes. -/
def outcomeCount (s : OutcomeSpecificSimulation) : ℕ :=
  s.outcomeIntroducesBranchBit.length

/-- Grow the tableau. -/
def reserveQubits (s : OutcomeSpecificSimulation) (newCapacity : ℕ) :
    Option OutcomeSpecificSimulation :=
  if newCapacity > s.qubitCapacity then do
    let clifford ← s.clifford.resize newCapacity
    some { s with clifford := clifford }
  else some s

/-- Take a qubit into use. -/
def ensureQubitCapacity (s : OutcomeSpecificSimulation) (maxQubitId : Option ℕ) :
    Option OutcomeSpecificSimulation :=
  match maxQubitId with
  | none => some s
  | some maxQubitId =>
    let s := { s with qubitCount := max s.qubitCount (maxQubitId + 1) }
    if maxQubitId ≥ s.qubitCapacity then s.reserveQubits (nextPowerOfTwo (maxQubitId + 1))
    else some s

/-- Apply an operation to the tableau. -/
def applyClifford (s : OutcomeSpecificSimulation) (op : CliffordOp) :
    Option OutcomeSpecificSimulation := do
  let clifford ← op.apply s.clifford
  some { s with clifford := clifford }

/-- Apply a unitary operation after taking its qubits into use. -/
def unitary (s : OutcomeSpecificSimulation) (op : CliffordOp) :
    Option OutcomeSpecificSimulation := do
  let s ← s.ensureQubitCapacity op.maxSupport
  s.applyClifford op

/-- Draw a random bit and record it. -/
def allocateRandomBit (s : OutcomeSpecificSimulation) : OutcomeSpecificSimulation :=
  { s with
    outcomeVector := s.outcomeVector ++ [s.bitSource 0]
    bitSource := fun k => s.bitSource (k + 1)
    outcomeIntroducesBranchBit := s.outcomeIntroducesBranchBit ++ [true]
    numBranchBits := s.numBranchBits + 1 }

/-- The parity of some outcomes; `none` is an index out of range. -/
def totalParity (outcomeVector : List Bool) (outcomesIndicator : List ℕ) : Option Bool :=
  outcomesIndicator.foldlM (fun res j => do
    let outcome ← outcomeVector[j]?
    some (res ^^ outcome)) false

/-- Left multiplication by a Pauli; a qubit beyond the tableau is a row out of range. -/
def leftMulPauli (s : OutcomeSpecificSimulation) (pauli : PauliUnitary) :
    Option OutcomeSpecificSimulation :=
  if pauli.Below s.qubitCapacity then s.applyClifford (.leftMulPauli pauli) else none

/-- Apply a Pauli when the parity of some outcomes has the given value. -/
def applyConditionalPauliGeneric (s : OutcomeSpecificSimulation) (pauli : PauliUnitary)
    (outcomesIndicator : List ℕ) (parity : Bool) :
    Option OutcomeSpecificSimulation := do
  let total ← totalParity s.outcomeVector outcomesIndicator
  if total = parity then s.leftMulPauli pauli else some s

/-- Apply a conditional Pauli, without taking its qubits into use. -/
def conditionalPauli (s : OutcomeSpecificSimulation) (observable : PauliUnitary) (outcomes : List ℕ)
    (parity : Bool) :
    Option OutcomeSpecificSimulation :=
  s.applyConditionalPauliGeneric observable outcomes parity

/-- Record the outcome of a measurement whose preimage has no `X` component. -/
def measureDeterministic (s : OutcomeSpecificSimulation) (preimage : PauliUnitary) :
    OutcomeSpecificSimulation :=
  { s with
    outcomeVector := s.outcomeVector ++ [PauliUnitary.phaseValue preimage.xzPhaseExp == 2]
    outcomeIntroducesBranchBit := s.outcomeIntroducesBranchBit ++ [false] }

def measure (s : OutcomeSpecificSimulation) (observable : PauliUnitary) :
    Option OutcomeSpecificSimulation := do
  let s ← s.ensureQubitCapacity observable.maxSupport
  let preimage := s.clifford.assignCliffordPreimage observable
  match preimage.xBits.support.head? with
  | some pos =>
    let s := s.allocateRandomBit
    let outcome := s.outcomeVector.getD (s.outcomeCount - 1) false
    some { s with
      clifford := s.clifford.updateEncoderForRandomOutcome observable preimage pos outcome }
  | none => some (s.measureDeterministic preimage)

def measureWithHint (s : OutcomeSpecificSimulation) (observable hint : PauliUnitary) :
    Option OutcomeSpecificSimulation := do
  let s ← s.ensureQubitCapacity (maxPairSupport observable hint)
  if observable.antiCommutesWith hint then
    let preimage := s.clifford.preimage hint
    match preimage.xBits.support.head? with
    | some _ => s.measure observable
    | none => do
        let s ← s.applyClifford (.leftMulPauliExp (hintedPauli observable hint preimage))
        let s := s.allocateRandomBit
        s.applyConditionalPauliGeneric hint [s.outcomeCount - 1] true
  else none

/-- Perform one operation; `none` is a panic. -/
def apply (s : OutcomeSpecificSimulation) :
    SimulationOp → Option OutcomeSpecificSimulation
  | .unitary op => s.unitary op
  | .conditionalPauli observable outcomes parity => s.conditionalPauli observable outcomes parity
  | .measure observable => s.measure observable
  | .measureWithHint observable hint => s.measureWithHint observable hint
  | .allocateRandomBit => some s.allocateRandomBit

/-- Perform a circuit. -/
def run (ops : List SimulationOp) (s : OutcomeSpecificSimulation) :
    Option OutcomeSpecificSimulation :=
  ops.foldlM apply s

end OutcomeSpecificSimulation

end QdkEc
