import QdkEc.Paulimer.CliffordProjection
import QdkEc.Pauliverse.Simulation

/-!
# Outcome-free simulation

This module models `OutcomeFreeSimulation`, which follows a tableau without
phases and records which outcomes are random, but no outcome.  Its operations do
not all take the qubits that they mention into use: a row beyond the tableau is a
panic.
-/

namespace QdkEc

namespace CliffordUnitaryModPauli

open CliffordUnitary (zOfPx zOfPz)

/-- The preimage of an observable; its first factor is assigned and the others multiplied. -/
def assignCliffordPreimage (clifford : CliffordUnitaryModPauli)
    (observable : PauliUnitaryProjective) :
    PauliUnitaryProjective :=
  let factors := observable.xBits.support.map clifford.preimageXView ++
    observable.zBits.support.map clifford.preimageZView
  match factors with
  | [] => PauliUnitaryProjective.neutralElement
  | first :: factors => factors.foldl PauliUnitaryProjective.mulAssignRight first

/-- The rows that the preimage of a Pauli reads lie in the matrix, though maybe in the part of
another qubit. -/
def ReadsRows (C : CliffordUnitaryModPauli) (pauli : PauliUnitaryProjective) : Prop :=
  (∀ id ∈ pauli.xBits.support, zOfPx C.numQubits id < C.bits.rowCount) ∧
    ∀ id ∈ pauli.zBits.support, zOfPz C.numQubits id < C.bits.rowCount

instance (C : CliffordUnitaryModPauli) (pauli : PauliUnitaryProjective) :
    Decidable (C.ReadsRows pauli) :=
  inferInstanceAs (Decidable (_ ∧ _))

/-- Rewrite the preimages of `X` of a list of qubits in place, each in its own way. -/
def rewritePreimagesX (C : CliffordUnitaryModPauli)
    (g : ℕ → PauliUnitaryProjective → PauliUnitaryProjective) (qubits : List ℕ) :
    CliffordUnitaryModPauli :=
  qubits.foldl (fun C index => C.setPreimageX index (g index (C.preimageXView index))) C

/-- Rewrite the preimages of `Z` of a list of qubits in place, each in its own way. -/
def rewritePreimagesZ (C : CliffordUnitaryModPauli)
    (g : ℕ → PauliUnitaryProjective → PauliUnitaryProjective) (qubits : List ℕ) :
    CliffordUnitaryModPauli :=
  qubits.foldl (fun C index => C.setPreimageZ index (g index (C.preimageZView index))) C

def updateAnticommutingGeneratorPreimage (generatorPreimage factor : PauliUnitaryProjective)
    (anticommutesWithObservable : Bool) :
    PauliUnitaryProjective :=
  if anticommutesWithObservable then generatorPreimage
  else generatorPreimage.mulAssignRight factor

def updateEncoderForRandomOutcome (encoder : CliffordUnitaryModPauli)
    (observable preimage : PauliUnitaryProjective) (pivot : ℕ) :
    CliffordUnitaryModPauli :=
  let factor := preimage.mulAssignRightZ pivot
  let zImageSupport := encoder.zImageView pivot
  let xGenerators := zImageSupport.zBits.support
  let zGenerators := zImageSupport.xBits.support
  let encoder := encoder.rewritePreimagesX
    (fun qubit p => updateAnticommutingGeneratorPreimage p factor (observable.zBits.index qubit))
    xGenerators
  let encoder := encoder.rewritePreimagesZ
    (fun qubit p => updateAnticommutingGeneratorPreimage p factor (observable.xBits.index qubit))
    zGenerators
  -- the remaining generators to update anticommute with `observable` but not with `image_z(pivot)`
  let encoder := encoder.rewritePreimagesX (fun _ p => p.mulAssignRight factor)
    (observable.zBits.support.filter (· ∉ xGenerators))
  encoder.rewritePreimagesZ (fun _ p => p.mulAssignRight factor)
    (observable.xBits.support.filter (· ∉ zGenerators))

end CliffordUnitaryModPauli

/-- A simulation modulo Paulis. -/
structure OutcomeFreeSimulation where
  clifford : CliffordUnitaryModPauli
  outcomeIntroducesBranchBit : List Bool
  branchBitCount : ℕ
  qubitCount : ℕ

namespace OutcomeFreeSimulation

/-- A new simulation; the capacity of the record of outcomes has no effect. -/
def withCapacity (qubitCount _outcomeCount _branchBitCount : ℕ) : OutcomeFreeSimulation where
  clifford := CliffordUnitaryModPauli.identity qubitCount
  outcomeIntroducesBranchBit := []
  branchBitCount := 0
  qubitCount := qubitCount

/-- The number of qubits of the tableau. -/
def qubitCapacity (s : OutcomeFreeSimulation) : ℕ :=
  s.clifford.numQubits

/-- The number of recorded outcomes. -/
def outcomeCount (s : OutcomeFreeSimulation) : ℕ :=
  s.outcomeIntroducesBranchBit.length

/-- The encoder on the qubits in use; `none` is a failed assertion. -/
def stateEncoder (s : OutcomeFreeSimulation) : Option CliffordUnitaryModPauli :=
  s.clifford.resize s.qubitCount

/-- Grow the tableau. -/
def reserveQubits (s : OutcomeFreeSimulation) (newCapacity : ℕ) : Option OutcomeFreeSimulation :=
  if newCapacity > s.qubitCapacity then do
    let clifford ← s.clifford.resize newCapacity
    some { s with clifford := clifford }
  else some s

/-- Take a qubit into use. -/
def ensureQubitCapacity (s : OutcomeFreeSimulation) (maxQubitId : Option ℕ) :
    Option OutcomeFreeSimulation :=
  match maxQubitId with
  | none => some s
  | some maxQubitId =>
    let s := { s with qubitCount := max s.qubitCount (maxQubitId + 1) }
    if maxQubitId ≥ s.qubitCapacity then s.reserveQubits (nextPowerOfTwo (maxQubitId + 1))
    else some s

/-- Record a random outcome. -/
def allocateRandomBit (s : OutcomeFreeSimulation) : OutcomeFreeSimulation :=
  { s with
    branchBitCount := s.branchBitCount + 1
    outcomeIntroducesBranchBit := s.outcomeIntroducesBranchBit ++ [true] }

/-- Apply a named gate. -/
def unitaryOp (s : OutcomeFreeSimulation) (operation : UnitaryOp) (support : List ℕ) :
    Option OutcomeFreeSimulation := do
  let s ← s.ensureQubitCapacity (maxSupport support)
  let clifford ← s.clifford.leftMul operation support
  some { s with clifford := clifford }

/-- Apply a Clifford gate, without taking its qubits into use: the new preimages of a qubit beyond
the tableau go to rows out of range. -/
def cliffordGate (s : OutcomeFreeSimulation) (gate : CliffordUnitary) (support : List ℕ) :
    Option OutcomeFreeSimulation :=
  if ∀ qubit ∈ support, qubit < s.qubitCapacity then do
    let clifford ← s.clifford.leftMulClifford gate.projective support
    some { s with clifford := clifford }
  else none

/-- Apply a Pauli, which changes no bit of the tableau. -/
def pauli (s : OutcomeFreeSimulation) (_observable : PauliUnitary) : OutcomeFreeSimulation :=
  s

/-- Apply a conditional Pauli, which changes no bit of the tableau. -/
def conditionalPauli (s : OutcomeFreeSimulation) (_observable : PauliUnitary) (_outcomes : List ℕ)
    (_parity : Bool) :
    OutcomeFreeSimulation :=
  s

/-- Apply a Pauli exponential. -/
def pauliExp (s : OutcomeFreeSimulation) (sparsePauli : PauliUnitary) :
    Option OutcomeFreeSimulation := do
  let s ← s.ensureQubitCapacity sparsePauli.maxSupport
  some { s with clifford := s.clifford.leftMulPauliExp sparsePauli.projective }

def controlledPauli (s : OutcomeFreeSimulation) (observable1 observable2 : PauliUnitary) :
    Option OutcomeFreeSimulation := do
  let s ← s.ensureQubitCapacity (maxPairSupport observable1 observable2)
  some { s with
    clifford :=
      s.clifford.leftMulControlledPauli observable1.projective observable2.projective }

def permute (s : OutcomeFreeSimulation) (permutation support : List ℕ) :
    Option OutcomeFreeSimulation := do
  let s ← s.ensureQubitCapacity (maxSupport support)
  let clifford ← s.clifford.leftMulPermutation permutation support
  some { s with clifford := clifford }

/-- Apply a unitary operation. -/
def unitary (s : OutcomeFreeSimulation) :
    CliffordOp → Option OutcomeFreeSimulation
  | .leftMul operation support => s.unitaryOp operation support
  | .leftMulPauli observable => some (s.pauli observable)
  | .leftMulPauliExp sparsePauli => s.pauliExp sparsePauli
  | .leftMulControlledPauli observable1 observable2 => s.controlledPauli observable1 observable2
  | .leftMulPermutation permutation support => s.permute permutation support
  | .leftMulClifford gate support => s.cliffordGate gate support

/-- Measure an observable on qubits of the tableau. -/
def measureProjective (s : OutcomeFreeSimulation) (observable : PauliUnitaryProjective) :
    OutcomeFreeSimulation :=
  let preimage := s.clifford.assignCliffordPreimage observable
  match preimage.xBits.support.head? with
  | some pos =>
    let s := s.allocateRandomBit
    { s with clifford := s.clifford.updateEncoderForRandomOutcome observable preimage pos }
  | none => { s with outcomeIntroducesBranchBit := s.outcomeIntroducesBranchBit ++ [false] }

/-- Measure an observable on qubits of the tableau with a hint that may lie beyond it. -/
def measureWithHintGeneric (s : OutcomeFreeSimulation) (observable hint : PauliUnitaryProjective) :
    Option OutcomeFreeSimulation :=
  if observable.antiCommutesWith hint = true ∧ s.clifford.ReadsRows hint then
    let preimage := s.clifford.preimage hint
    match preimage.xBits.support.head? with
    | some _ => some (s.measureProjective observable)
    | none =>
      let pauli := observable.mulAssignRight hint
      if pauli.Below s.qubitCapacity then
        some { s with clifford := s.clifford.leftMulPauliExp pauli }.allocateRandomBit
      else none
  else none

def measure (s : OutcomeFreeSimulation) (observable : PauliUnitary) :
    Option OutcomeFreeSimulation := do
  let s ← s.ensureQubitCapacity observable.maxSupport
  some (s.measureProjective observable.projective)

/-- Measure an observable with a hint, without taking the qubits of the hint into use. -/
def measureWithHint (s : OutcomeFreeSimulation)
    (observable antiCommutingStabilizer : PauliUnitary) :
    Option OutcomeFreeSimulation := do
  let s ← s.ensureQubitCapacity observable.maxSupport
  s.measureWithHintGeneric observable.projective antiCommutingStabilizer.projective

/-- Perform one operation; `none` is a panic. -/
def apply (s : OutcomeFreeSimulation) :
    SimulationOp → Option OutcomeFreeSimulation
  | .unitary op => s.unitary op
  | .conditionalPauli observable outcomes parity =>
    some (s.conditionalPauli observable outcomes parity)
  | .measure observable => s.measure observable
  | .measureWithHint observable hint => s.measureWithHint observable hint
  | .allocateRandomBit => some s.allocateRandomBit

/-- Perform a circuit. -/
def run (ops : List SimulationOp) (s : OutcomeFreeSimulation) : Option OutcomeFreeSimulation :=
  ops.foldlM apply s

/-- Some sign of an observable on qubits of the tableau is a stabilizer. -/
def isStabilizerUpToSign (s : OutcomeFreeSimulation) (observable : PauliUnitary) : Bool :=
  (s.clifford.preimage observable.projective).xBits == 0

end OutcomeFreeSimulation

end QdkEc
