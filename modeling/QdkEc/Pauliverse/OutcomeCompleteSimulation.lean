import QdkEc.Pauliverse.Simulation

/-!
# Outcome-complete simulation

This module models `OutcomeCompleteSimulation`, which follows all branches at
once: one tableau, a matrix of signs and a matrix of outcomes whose columns are
the random bits.
-/

namespace QdkEc

open PhasedPauli

/-- A simulation of all branches; the shift vector grows by zero blocks, which bit sets imply. -/
structure OutcomeCompleteSimulation where
  clifford : CliffordUnitary
  signMatrix : AlignedBitMatrix
  outcomeMatrix : AlignedBitMatrix
  outcomeShift : Bits
  outcomeIntroducesBranchBit : List Bool
  branchBitCount : ℕ
  qubitCount : ℕ

def rowSum (matrix : AlignedBitMatrix) (rowsToSum : List ℕ) : Bits :=
  rowsToSum.foldl (fun res rowId => res + matrix.row rowId) 0

/-- The parity of some outcomes as a function of the branch. -/
structure OutcomeParity where
  branchMask : Bits
  constant : Bool

def OutcomeParity.new (outcomeMatrix : AlignedBitMatrix) (outcomeShift : Bits) (outcomes : List ℕ) :
    Option OutcomeParity :=
  if outcomes.all (· < outcomeMatrix.rowCount) then
    some {
      branchMask := rowSum outcomeMatrix outcomes
      constant := outcomes.foldl
        (fun parity outcome => parity ^^ outcomeShift.index outcome) false }
  else none

/-- Where a new branch bit is recorded. -/
structure BranchBitLocation where
  outcomeId : ℕ
  branchBitIndex : ℕ

namespace OutcomeCompleteSimulation

/-- The least capacity of the matrices. -/
def minCapacity : ℕ :=
  512

/-- A new simulation with preallocated matrices. -/
def withCapacity (qubitCount outcomeCount branchBitCount : ℕ) : OutcomeCompleteSimulation where
  clifford := CliffordUnitary.identity qubitCount
  signMatrix := AlignedBitMatrix.zeros qubitCount (max branchBitCount minCapacity)
  outcomeMatrix :=
    AlignedBitMatrix.zeros (max outcomeCount minCapacity) (max branchBitCount minCapacity)
  outcomeShift := 0
  outcomeIntroducesBranchBit := []
  branchBitCount := 0
  qubitCount := qubitCount

def new (qubitCount : ℕ) : OutcomeCompleteSimulation :=
  withCapacity qubitCount 0 0

/-- The number of qubits of the tableau. -/
def qubitCapacity (c : OutcomeCompleteSimulation) : ℕ :=
  c.clifford.numQubits

/-- The number of rows of the outcome matrix. -/
def outcomeCapacity (c : OutcomeCompleteSimulation) : ℕ :=
  c.outcomeMatrix.rowCount

/-- The number of columns of the outcome matrix. -/
def branchBitCapacity (c : OutcomeCompleteSimulation) : ℕ :=
  c.outcomeMatrix.columnCount

/-- The number of recorded outcomes. -/
def outcomeCount (c : OutcomeCompleteSimulation) : ℕ :=
  c.outcomeIntroducesBranchBit.length

/-- Grow the tableau and the sign matrix. -/
def reserveQubits (c : OutcomeCompleteSimulation) (newCapacity : ℕ) :
    Option OutcomeCompleteSimulation :=
  if newCapacity > c.qubitCapacity then do
    let clifford ← c.clifford.resize newCapacity
    some { c with
      signMatrix := c.signMatrix.resize newCapacity c.signMatrix.columnCount
      clifford := clifford }
  else some c

/-- Take a qubit into use. -/
def ensureQubitCapacity (c : OutcomeCompleteSimulation) (maxQubitId : Option ℕ) :
    Option OutcomeCompleteSimulation :=
  match maxQubitId with
  | none => some c
  | some maxQubitId =>
    let c := { c with qubitCount := max c.qubitCount (maxQubitId + 1) }
    if maxQubitId ≥ c.qubitCapacity then c.reserveQubits (nextPowerOfTwo (maxQubitId + 1))
    else some c

/-- Grow the outcome matrix; `none` is a failed assertion. -/
def reserveOutcomes (c : OutcomeCompleteSimulation) (newOutcomeCapacity newBranchBitCapacity : ℕ) :
    Option OutcomeCompleteSimulation :=
  if newOutcomeCapacity ≥ newBranchBitCapacity then
    let newOutcomeCapacity := max newOutcomeCapacity c.outcomeCapacity
    let newBranchBitCapacity := max newBranchBitCapacity c.branchBitCapacity
    some { c with
      outcomeMatrix := c.outcomeMatrix.resize newOutcomeCapacity newBranchBitCapacity
      signMatrix := c.signMatrix.resize c.signMatrix.rowCount newBranchBitCapacity }
  else none

def newOutcomeCapacity (c : OutcomeCompleteSimulation) : ℕ :=
  if c.outcomeCount ≥ c.outcomeCapacity then nextPowerOfTwo (c.outcomeCount + 1)
  else c.outcomeCapacity

def newBranchBitCapacity (c : OutcomeCompleteSimulation) (randomOutcome : Bool) : ℕ :=
  if randomOutcome = true ∧ c.branchBitCount ≥ c.branchBitCapacity then
    nextPowerOfTwo (c.branchBitCount + 1)
  else c.branchBitCapacity

/-- Make room for the next outcome. -/
def ensureOutcomeCapacity (c : OutcomeCompleteSimulation) (randomOutcome : Bool) :
    Option OutcomeCompleteSimulation :=
  c.reserveOutcomes c.newOutcomeCapacity (c.newBranchBitCapacity randomOutcome)

/-- Apply an operation to the tableau. -/
def applyClifford (c : OutcomeCompleteSimulation) (op : CliffordOp) :
    Option OutcomeCompleteSimulation := do
  let clifford ← op.apply c.clifford
  some { c with clifford := clifford }

/-- Apply a unitary operation after taking its qubits into use. -/
def unitary (c : OutcomeCompleteSimulation) (op : CliffordOp) :
    Option OutcomeCompleteSimulation := do
  let c ← c.ensureQubitCapacity op.maxSupport
  c.applyClifford op

/-- Add a set of branch bits to the signs of some rows. -/
def xorSigns (c : OutcomeCompleteSimulation) (rows : List ℕ) (branchBitsIndicator : Bits) :
    OutcomeCompleteSimulation :=
  { c with
    signMatrix := rows.foldl
      (fun signMatrix row => signMatrix.setRow row (signMatrix.row row + branchBitsIndicator))
      c.signMatrix }

def applyPauliConditionedOnBranchBits (c : OutcomeCompleteSimulation) (pauli : PauliUnitary)
    (branchBitsIndicator : Bits) :
    OutcomeCompleteSimulation :=
  c.xorSigns (c.clifford.preimage pauli).xBits.support branchBitsIndicator

/-- Record a fresh branch bit. -/
def allocateBranchBit (c : OutcomeCompleteSimulation) :
    Option (OutcomeCompleteSimulation × BranchBitLocation) := do
  let c ← c.ensureOutcomeCapacity true
  let location : BranchBitLocation :=
    { outcomeId := c.outcomeCount, branchBitIndex := c.branchBitCount }
  some ({ c with
    outcomeMatrix := c.outcomeMatrix.set location.outcomeId location.branchBitIndex true
    outcomeIntroducesBranchBit := c.outcomeIntroducesBranchBit ++ [true]
    branchBitCount := c.branchBitCount + 1 }, location)

/-- Apply a Pauli when the parity of some outcomes has the given value. -/
def conditionalPauli (c : OutcomeCompleteSimulation) (observable : PauliUnitary) (outcomes : List ℕ)
    (parity : Bool) :
    Option OutcomeCompleteSimulation := do
  let c ← c.ensureQubitCapacity observable.maxSupport
  let control ← OutcomeParity.new c.outcomeMatrix c.outcomeShift outcomes
  let c ← if control.constant = parity then c.unitary (.leftMulPauli observable) else some c
  some (c.applyPauliConditionedOnBranchBits observable control.branchMask)

/-- Record the outcome of a measurement whose preimage has no `X` component. -/
def measureDeterministic (c : OutcomeCompleteSimulation) (preimage : PauliUnitary) :
    Option OutcomeCompleteSimulation := do
  let c ← c.ensureOutcomeCapacity false
  let outcomeMatrixRow := rowSum c.signMatrix preimage.zBits.support
  let outcomePosition := c.outcomeIntroducesBranchBit.length
  some { c with
    outcomeMatrix := c.outcomeMatrix.setRow outcomePosition outcomeMatrixRow
    outcomeShift :=
      if PauliUnitary.phaseValue preimage.xzPhaseExp == 2 then
        AlignedBitMatrix.assignIndex c.outcomeShift outcomePosition true
      else c.outcomeShift
    outcomeIntroducesBranchBit := c.outcomeIntroducesBranchBit ++ [false] }

/-- Measure an observable whose preimage has an `X` component on a pivot. -/
def measureRandom (c : OutcomeCompleteSimulation) (observable preimage : PauliUnitary) (pivot : ℕ) :
    Option OutcomeCompleteSimulation := do
  let (c, location) ← c.allocateBranchBit
  let branchBitsIndicator :=
    AlignedBitMatrix.assignIndex (rowSum c.signMatrix [pivot]) location.branchBitIndex true
  let c := c.xorSigns preimage.xBits.support branchBitsIndicator
  some { c with
    clifford := c.clifford.updateEncoderForRandomOutcome observable preimage pivot false }

def measure (c : OutcomeCompleteSimulation) (observable : PauliUnitary) :
    Option OutcomeCompleteSimulation := do
  let c ← c.ensureQubitCapacity observable.maxSupport
  let preimage := c.clifford.assignCliffordPreimage observable
  match preimage.xBits.support.head? with
  | some pos => c.measureRandom observable preimage pos
  | none => c.measureDeterministic preimage

def measureWithHint (c : OutcomeCompleteSimulation) (observable hint : PauliUnitary) :
    Option OutcomeCompleteSimulation := do
  let c ← c.ensureQubitCapacity (maxPairSupport observable hint)
  if observable.antiCommutesWith hint then
    let preimage := c.clifford.preimage hint
    match preimage.xBits.support.head? with
    | some _ => c.measure observable
    | none => do
        let c ← c.unitary (.leftMulPauliExp (hintedPauli observable hint preimage))
        let (c, location) ← c.allocateBranchBit
        let branchBitsIndicator :=
          AlignedBitMatrix.assignIndex (rowSum c.signMatrix preimage.zBits.support)
            location.branchBitIndex true
        some (c.applyPauliConditionedOnBranchBits hint branchBitsIndicator)
  else none

/-- Perform one operation; `none` is a panic. -/
def apply (c : OutcomeCompleteSimulation) :
    SimulationOp → Option OutcomeCompleteSimulation
  | .unitary op => c.unitary op
  | .conditionalPauli observable outcomes parity => c.conditionalPauli observable outcomes parity
  | .measure observable => c.measure observable
  | .measureWithHint observable hint => c.measureWithHint observable hint
  | .allocateRandomBit => c.allocateBranchBit.map Prod.fst

/-- Perform a circuit. -/
def run (ops : List SimulationOp) (c : OutcomeCompleteSimulation) :
    Option OutcomeCompleteSimulation :=
  ops.foldlM apply c

/-- The signs of the stabilizers in a branch. -/
def signs (c : OutcomeCompleteSimulation) (r : Bits) : Bits :=
  Bits.fromIndices ((List.range c.signMatrix.rowCount).filter fun i =>
    Bits.dot (c.signMatrix.row i) r)

def outcomeVector (c : OutcomeCompleteSimulation) (r : Bits) : List Bool :=
  (List.range c.outcomeCount).map fun id =>
    Bits.dot (c.outcomeMatrix.row id) r ^^ c.outcomeShift.index id

end OutcomeCompleteSimulation

end QdkEc
