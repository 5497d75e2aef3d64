import QdkEc.Pauliverse.FaultySimulation
import QdkEc.Pauliverse.OutcomeCompleteRefinement

/-!
# Realised faults

This module models what sampling a faulty simulation computes once its faults are
drawn: the replay of the circuit on error frames, the outcome deltas of a shot, and the
circuit of a direct simulation in which the Paulis of the shot are inserted.
-/

namespace QdkEc

/-- The Pauli, if any, that occurs at each noise location of each shot. -/
abbrev FaultRealisation : Type :=
  ℕ → ℕ → Option PauliUnitary

namespace FaultRealisation

/-- The shots in which a Pauli occurs at a location. -/
def shots (faults : FaultRealisation) (location shotCount : ℕ) : List (ℕ × PauliUnitary) :=
  (List.range shotCount).filterMap fun shot => (faults location shot).map (Prod.mk shot)

/-- The realised Paulis act on the qubits that the frames have. -/
def InUse (faults : FaultRealisation) (qubitCount : ℕ) : Prop :=
  ∀ location shot pauli, faults location shot = some pauli → pauli.Below qubitCount

end FaultRealisation

namespace FramePropagator

def deltas (F : FramePropagator) (shot id : ℕ) : Bool :=
  (F.outcomeDeltas.row id).index shot

variable {K : Type}

/-- Replay a circuit whose faults are realised, from a noise location on. -/
def replay (faults : FaultRealisation) :
    ℕ → List (FaultyInstruction K) → FramePropagator → FramePropagator
  | _, [], F => F
  | location, .op instruction :: rest, F => replay faults location rest (F.execute instruction [])
  | location, .noise _ :: rest, F =>
    replay faults (location + 1) rest (F.execute .noise (faults.shots location F.shotCount))

/-- The frame of a shot is where a permutation of some qubits puts it, whichever way the permutation
is read: moving it twice changes nothing. -/
def FixedByTwo (F : FramePropagator) (shot : ℕ) (permutation qubits : List ℕ) : Prop :=
  ∀ e, e < permutation.length →
    let twice := qubits.getD (permutation.getD (permutation.getD e 0) 0) 0
    (F.xFrames.row twice).index shot = (F.xFrames.row (qubits.getD e 0)).index shot ∧
      (F.zFrames.row twice).index shot = (F.zFrames.row (qubits.getD e 0)).index shot

/-- An instruction that permutes qubits meets a frame of the shot that it may move. -/
def MovesAlike (F : FramePropagator) (shot : ℕ) :
    Instruction → Prop
  | .permute permutation qubits => F.FixedByTwo shot permutation qubits
  | _ => True

/-- Every permutation of a circuit meets a frame of the shot that it may move. -/
def ReplayMovesAlike (faults : FaultRealisation) (shot : ℕ) :
    ℕ → List (FaultyInstruction K) → FramePropagator → Prop
  | _, [], _ => True
  | location, .op instruction :: rest, F =>
    F.MovesAlike shot instruction ∧
      ReplayMovesAlike faults shot location rest (F.execute instruction [])
  | location, .noise _ :: rest, F =>
    ReplayMovesAlike faults shot (location + 1) rest
      (F.execute .noise (faults.shots location F.shotCount))

end FramePropagator

namespace FaultySimulation

variable {K : Type}

/-- The propagator before a circuit is replayed. -/
def propagator (simulation : FaultySimulation K) (shotCount : ℕ) : FramePropagator :=
  .new simulation.noiseless.qubitCount simulation.noiseless.outcomeCount shotCount

def outcomeDeltas (simulation : FaultySimulation K) (faults : FaultRealisation)
    (shotCount shot : ℕ) :
    ℕ → Bool :=
  ((simulation.propagator shotCount).replay faults 0 simulation.circuit).deltas shot

def sampledOutcomes (simulation : FaultySimulation K) (faults : FaultRealisation)
    (shotCount shot : ℕ) (branch : Bits) :
    List Bool :=
  (simulation.noiseless.outcomeVector branch).mapIdx fun id outcome =>
    outcome ^^ simulation.outcomeDeltas faults shotCount shot id

end FaultySimulation

def FaultyCall.operation {K : Type} : FaultyCall K → Option SimulationOp
  | .op performed => some performed
  | _ => none

/-- The circuit of some calls with the Paulis of one shot inserted, from a noise location on. -/
def withFaults {K : Type} (faults : FaultRealisation) (shot : ℕ) :
    ℕ → List (FaultyCall K) → List SimulationOp
  | _, [] => []
  | location, .op op :: calls => op :: withFaults faults shot location calls
  | location, .applyFault _ :: calls =>
    (faults location shot).toList.map (fun pauli => .unitary (.leftMulPauli pauli)) ++
      withFaults faults shot (location + 1) calls
  | location, .reserveQubits _ :: calls => withFaults faults shot location calls
  | location, .reserveOutcomes _ _ :: calls => withFaults faults shot location calls

/-- The probability of an outcome vector when all branches are equally likely. -/
def branchProbability (branchBitCount : ℕ) (outcomes : Bits → List Bool) (vector : List Bool) : ℚ :=
  ((Finset.range (2 ^ branchBitCount)).filter fun branch => outcomes ⟨branch⟩ = vector).card /
    2 ^ branchBitCount

def OutcomeCompleteSimulation.probability (c : OutcomeCompleteSimulation) (vector : List Bool) :
    ℚ :=
  branchProbability c.branchBitCount c.outcomeVector vector

/-- The probability of an outcome vector in a shot with realised faults. -/
def FaultySimulation.sampledProbability {K : Type} (simulation : FaultySimulation K)
    (faults : FaultRealisation) (shotCount shot : ℕ) (vector : List Bool) :
    ℚ :=
  branchProbability simulation.noiseless.branchBitCount
    (simulation.sampledOutcomes faults shotCount shot) vector

end QdkEc
