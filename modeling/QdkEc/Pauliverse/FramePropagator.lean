import QdkEc.Pauliverse.Circuit

/-!
# Pauli frame propagation

This module models `FramePropagator`.  Frames are stored transposed, one bit row
for every qubit and one column for every shot.  A shot *carries* a Pauli when its
column spells that Pauli up to phase.
-/

namespace QdkEc

open PhasedPauli

/-- Error frames and outcome deltas of all shots. -/
structure FramePropagator where
  xFrames : AlignedBitMatrix
  zFrames : AlignedBitMatrix
  outcomeDeltas : AlignedBitMatrix
  shotCount : ℕ
  nextOutcomeId : ℕ

namespace FramePropagator

/-- Every frame is the identity. -/
def new (qubitCount outcomeCount shotCount : ℕ) : FramePropagator where
  xFrames := AlignedBitMatrix.zeros qubitCount shotCount
  zFrames := AlignedBitMatrix.zeros qubitCount shotCount
  outcomeDeltas := AlignedBitMatrix.zeros outcomeCount shotCount
  shotCount := shotCount
  nextOutcomeId := 0

/-- Overwrite both rows of a qubit. -/
def assignRows (F : FramePropagator) (qubit : ℕ) (xRow zRow : Bits) : FramePropagator :=
  { F with
    xFrames := F.xFrames.setRow qubit xRow
    zFrames := F.zFrames.setRow qubit zRow }

/-- Add a bit row into the X row of a qubit. -/
def xorX (F : FramePropagator) (qubit : ℕ) (mask : Bits) : FramePropagator :=
  { F with xFrames := F.xFrames.setRow qubit (F.xFrames.row qubit + mask) }

/-- Add a bit row into the Z row of a qubit. -/
def xorZ (F : FramePropagator) (qubit : ℕ) (mask : Bits) : FramePropagator :=
  { F with zFrames := F.zFrames.setRow qubit (F.zFrames.row qubit + mask) }

/-- Add a Pauli into the frames of the shots in a mask. -/
def xorPauli (F : FramePropagator) (pauli : PauliUnitary) (mask : Bits) : FramePropagator :=
  let F := pauli.xBits.support.foldl (fun F qubit => F.xorX qubit mask) F
  pauli.zBits.support.foldl (fun F qubit => F.xorZ qubit mask) F

/-- The shots whose frames anticommute with a Pauli. -/
def anticommutationMask (F : FramePropagator) (pauli : PauliUnitary) : Bits :=
  let mask := pauli.zBits.support.foldl (fun mask qubit => mask + F.xFrames.row qubit) 0
  pauli.xBits.support.foldl (fun mask qubit => mask + F.zFrames.row qubit) mask

/-- Exchange the X and Z rows of a qubit. -/
def applyH (F : FramePropagator) (qubit : ℕ) : FramePropagator :=
  F.assignRows qubit (F.zFrames.row qubit) (F.xFrames.row qubit)

/-- Add the X row of a qubit into its Z row. -/
def applyS (F : FramePropagator) (qubit : ℕ) : FramePropagator :=
  F.xorZ qubit (F.xFrames.row qubit)

/-- Add the Z row of a qubit into its X row. -/
def applySqrtX (F : FramePropagator) (qubit : ℕ) : FramePropagator :=
  F.xorX qubit (F.zFrames.row qubit)

/-- The rule of a controlled X gate. -/
def applyCnot (F : FramePropagator) (control target : ℕ) : FramePropagator :=
  let F := F.xorX target (F.xFrames.row control)
  F.xorZ control (F.zFrames.row target)

/-- The rule of a controlled Z gate. -/
def applyCz (F : FramePropagator) (qubitA qubitB : ℕ) : FramePropagator :=
  let F := F.xorZ qubitB (F.xFrames.row qubitA)
  F.xorZ qubitA (F.xFrames.row qubitB)

/-- Exchange the rows of two qubits. -/
def applySwap (F : FramePropagator) (qubitA qubitB : ℕ) : FramePropagator :=
  { F with
    xFrames := F.xFrames.swapRows qubitA qubitB
    zFrames := F.zFrames.swapRows qubitA qubitB }

/-- The rule of a named gate; gates that are Paulis change no frame. -/
def applyUnitaryOp (F : FramePropagator) (op : UnitaryOp) (qubits : List ℕ) : FramePropagator :=
  match op with
  | .I | .X | .Y | .Z => F
  | .Hadamard => F.applyH (qubits.getD 0 0)
  | .SqrtZ | .SqrtZInv => F.applyS (qubits.getD 0 0)
  | .SqrtX | .SqrtXInv => F.applySqrtX (qubits.getD 0 0)
  | .SqrtY | .SqrtYInv => F.applyH (qubits.getD 0 0)
  | .ControlledX => F.applyCnot (qubits.getD 0 0) (qubits.getD 1 0)
  | .ControlledZ => F.applyCz (qubits.getD 0 0) (qubits.getD 1 0)
  | .Swap => F.applySwap (qubits.getD 0 0) (qubits.getD 1 0)
  | .PrepareBell => (F.applyH (qubits.getD 0 0)).applyCnot (qubits.getD 0 0) (qubits.getD 1 0)

/-- Add a bit row when a condition holds. -/
def xorIf (condition : Bool) (row mask : Bits) : Bits :=
  if condition then row + mask else row

/-- The new rows of one qubit of a Clifford gate, from the snapshots of the old rows. -/
def cliffordRows (clifford : CliffordUnitary) (oldXRows oldZRows : List Bits) (localQ : ℕ) :
    Bits × Bits :=
  (List.range oldXRows.length).foldl
    (fun rows localSrc =>
      let xImage := clifford.xImageViewUpToPhase localSrc
      let zImage := clifford.zImageViewUpToPhase localSrc
      let newXRow := xorIf (xImage.1.index localQ) rows.1 (oldXRows.getD localSrc 0)
      let newZRow := xorIf (xImage.2.index localQ) rows.2 (oldXRows.getD localSrc 0)
      (xorIf (zImage.1.index localQ) newXRow (oldZRows.getD localSrc 0),
        xorIf (zImage.2.index localQ) newZRow (oldZRows.getD localSrc 0)))
    (0, 0)

/-- The rule of a Clifford gate on a support. -/
def applyClifford (F : FramePropagator) (clifford : CliffordUnitary) (qubits : List ℕ) :
    FramePropagator :=
  let oldXRows := qubits.map F.xFrames.row
  let oldZRows := qubits.map F.zFrames.row
  (List.range qubits.length).foldl
    (fun F localQ =>
      let rows := cliffordRows clifford oldXRows oldZRows localQ
      F.assignRows (qubits.getD localQ 0) rows.1 rows.2)
    F

/-- The rule of a Pauli exponential. -/
def applyPauliExp (F : FramePropagator) (pauli : PauliUnitary) : FramePropagator :=
  F.xorPauli pauli (F.anticommutationMask pauli)

/-- The rule of a permutation: the rows of `qubits[src]` move to `qubits[permutation[src]]`. -/
def applyPermutation (F : FramePropagator) (permutation qubits : List ℕ) : FramePropagator :=
  let oldXRows := qubits.map F.xFrames.row
  let oldZRows := qubits.map F.zFrames.row
  (List.range permutation.length).foldl
    (fun F srcLocal =>
      let dstGlobal := qubits.getD (permutation.getD srcLocal 0) 0
      F.assignRows dstGlobal (oldXRows.getD srcLocal 0) (oldZRows.getD srcLocal 0))
    F

def applyControlledPauli (F : FramePropagator) (control target : PauliUnitary) : FramePropagator :=
  let anticommutesControl := F.anticommutationMask control
  let anticommutesTarget := F.anticommutationMask target
  (F.xorPauli target anticommutesControl).xorPauli control anticommutesTarget

/-- Record the outcome delta of a measurement. -/
def measure (F : FramePropagator) (observable : PauliUnitary) : FramePropagator :=
  { F with
    outcomeDeltas := F.outcomeDeltas.setRow F.nextOutcomeId
      (F.outcomeDeltas.row F.nextOutcomeId + F.anticommutationMask observable)
    nextOutcomeId := F.nextOutcomeId + 1 }

/-- Advance the outcome counter. -/
def skipOutcome (F : FramePropagator) : FramePropagator :=
  { F with nextOutcomeId := F.nextOutcomeId + 1 }

/-- Apply a conditional Pauli in the shots whose condition was flipped. -/
def applyConditionalPauli (F : FramePropagator) (pauli : PauliUnitary) (outcomes : List ℕ) :
    FramePropagator :=
  F.xorPauli pauli
    (outcomes.foldl (fun scratch outcomeId => scratch + F.outcomeDeltas.row outcomeId) 0)

def applyPauliToShot (F : FramePropagator) (shot : ℕ) (pauli : PauliUnitary) : FramePropagator :=
  F.xorPauli pauli (Bits.unit shot)

/-- Execute one instruction; `faults` holds the sampled shots and Paulis of a noise instruction. -/
def execute (F : FramePropagator) (instruction : Instruction) (faults : List (ℕ × PauliUnitary)) :
    FramePropagator :=
  match instruction with
  | .unitary opcode qubits => F.applyUnitaryOp opcode qubits
  | .clifford gate qubits => F.applyClifford gate qubits
  | .pauli _ => F
  | .conditionalPauli pauli outcomes _ => F.applyConditionalPauli pauli outcomes
  | .pauliExp pauli => F.applyPauliExp pauli
  | .permute permutation qubits => F.applyPermutation permutation qubits
  | .controlledPauli control target => F.applyControlledPauli control target
  | .measure observable _ => F.measure observable
  | .allocateRandomBit _ => F.skipOutcome
  | .noise => faults.foldl (fun F fault => F.applyPauliToShot fault.1 fault.2) F

end FramePropagator

end QdkEc
