import QdkEc.Pauliverse.FramePropagator
import QdkEc.Pauliverse.OutcomeCompleteSimulation

/-!
# Faulty simulation

This module models `FaultySimulation`: operations are performed by a noiseless simulation
and recorded in a circuit, and faults are recorded only.  Sampling replays the circuit on
error frames that have a row for every qubit of the noiseless simulation.  A generator is
a stream of draws, and the functions that compute with floating-point numbers are
parameters.
-/

namespace QdkEc

/-- The greatest number of qubits of a depolarizing fault. -/
def maxDepolarizingQubits : ℕ :=
  31

/-- A distribution of Paulis. -/
inductive PauliDistribution (K : Type)
  | single (pauli : PauliUnitary)
  | depolarizingOnQubits (qubits : List ℕ)
  | uniformOver (paulis : List PauliUnitary)
  | weighted (paulis : List PauliUnitary) (cdf : List K)

/-- A condition on the parity of noiseless outcomes. -/
structure OutcomeCondition where
  outcomes : List ℕ
  parity : Bool

/-- A distribution has an element to sample; without a condition, a depolarizing fault on no qubits
does nothing. -/
def PauliDistribution.IsValid {K : Type} (condition : Option OutcomeCondition) :
    PauliDistribution K → Prop
  | .single _ => True
  | .depolarizingOnQubits qubits =>
    qubits.length ≤ maxDepolarizingQubits ∧ (condition.isSome → qubits ≠ [])
  | .uniformOver paulis => paulis ≠ []
  | .weighted paulis _ => paulis ≠ []

/-- A fault: a Pauli of a distribution occurs with some probability. -/
structure PauliFault (K : Type) where
  probability : K
  distribution : PauliDistribution K
  correlationId : Option ℕ
  condition : Option OutcomeCondition
  valid : distribution.IsValid condition

/-- What a generator draws for a possible fault: a number for the skip, one for a weighted choice and
a word for the other choices. -/
structure Draw (K : Type) [Zero K] [One K] [Preorder K] where
  skip : Set.Ico (0 : K) 1
  uniform : Set.Ico (0 : K) 1
  word : ℕ

/-- The functions that compute with floating-point numbers: the events that are skipped before a
fault of some probability, and the place of a number in a cumulative distribution. -/
structure SamplingFunctions (K : Type) [Zero K] [One K] [Preorder K] where
  nextSkip : K → Set.Ico (0 : K) 1 → ℕ
  partitionPoint : List K → Set.Ico (0 : K) 1 → ℕ

def sampleNonIdentityPauliBits (qubitCount word : ℕ) : ℕ :=
  word % (4 ^ qubitCount - 1) + 1

/-- The qubits at which a bit of each pair is set. -/
def qubitsOfBits (qubits : List ℕ) (bits bit : ℕ) : List ℕ :=
  (qubits.zipIdx.filter fun qubit => bits.testBit (2 * qubit.2 + bit)).map Prod.fst

def sampleDepolarizingPauli (qubits : List ℕ) (word : ℕ) : PauliUnitary :=
  let bits := sampleNonIdentityPauliBits qubits.length word
  ⟨Bits.fromIndices (qubitsOfBits qubits bits 0), Bits.fromIndices (qubitsOfBits qubits bits 1), 0⟩

section Sample

variable {K : Type} [Zero K] [One K] [Preorder K] (functions : SamplingFunctions K)

/-- Sample a Pauli; `none` is a panic. -/
def PauliDistribution.sample (draw : Draw K) :
    PauliDistribution K → Option PauliUnitary
  | .single pauli => some pauli
  | .depolarizingOnQubits qubits => some (sampleDepolarizingPauli qubits draw.word)
  | .uniformOver paulis => paulis[draw.word % paulis.length]?
  | .weighted paulis cdf =>
    paulis[min (functions.partitionPoint cdf draw.uniform) (paulis.length - 1)]?

end Sample

def OutcomeCondition.isSatisfied (condition : OutcomeCondition) (outcomes : List Bool) : Bool :=
  condition.outcomes.foldl (fun parity id => parity ^^ outcomes.getD id false) false ==
    condition.parity

/-- An instruction of a circuit with faults. -/
inductive FaultyInstruction (K : Type)
  | op (instruction : Instruction)
  | noise (fault : PauliFault K)

/-- The recorded circuit and the noiseless simulation. -/
structure FaultySimulation (K : Type) where
  circuit : List (FaultyInstruction K)
  noiseless : OutcomeCompleteSimulation

/-- A call of the interface of a faulty simulation. -/
inductive FaultyCall (K : Type)
  | op (op : SimulationOp)
  | applyFault (fault : PauliFault K)
  | reserveQubits (newQubitCapacity : ℕ)
  | reserveOutcomes (newOutcomeCapacity newBranchBitCapacity : ℕ)

/-- The instruction that records a unitary operation. -/
def CliffordOp.instruction : CliffordOp → Instruction
  | .leftMul unitaryOp support => .unitary unitaryOp support
  | .leftMulPauli pauli => .pauli pauli
  | .leftMulPauliExp pauli => .pauliExp pauli
  | .leftMulControlledPauli control target => .controlledPauli control target
  | .leftMulPermutation permutation support => .permute permutation support
  | .leftMulClifford clifford support => .clifford clifford support

/-- The instruction that records an operation; a hint is not recorded. -/
def SimulationOp.instruction (outcomeId : ℕ) : SimulationOp → Instruction
  | .unitary op => op.instruction
  | .conditionalPauli observable outcomes parity => .conditionalPauli observable outcomes parity
  | .measure observable => .measure observable outcomeId
  | .measureWithHint observable _ => .measure observable outcomeId
  | .allocateRandomBit => .allocateRandomBit outcomeId

namespace FaultySimulation

variable {K : Type}

/-- A simulation of an empty circuit. -/
def withCapacity (qubitCount outcomeCount branchBitCount : ℕ) : FaultySimulation K where
  circuit := []
  noiseless := .withCapacity qubitCount outcomeCount branchBitCount

/-- A simulation of an empty circuit without qubits. -/
def new (K : Type) : FaultySimulation K :=
  withCapacity 0 0 0

/-- Perform a call; `none` is a panic of the noiseless simulation. -/
def apply (simulation : FaultySimulation K) :
    FaultyCall K → Option (FaultySimulation K)
  | .op op => (simulation.noiseless.apply op).map fun noiseless => {
      circuit := simulation.circuit ++
        [.op (op.instruction simulation.noiseless.outcomeCount)]
      noiseless := noiseless }
  | .applyFault fault => some { simulation with circuit := simulation.circuit ++ [.noise fault] }
  | .reserveQubits newQubitCapacity =>
    (simulation.noiseless.reserveQubits newQubitCapacity).map fun noiseless =>
      { simulation with noiseless := noiseless }
  | .reserveOutcomes newOutcomeCapacity newBranchBitCapacity =>
    (simulation.noiseless.reserveOutcomes newOutcomeCapacity newBranchBitCapacity).map
      fun noiseless => { simulation with noiseless := noiseless }

/-- Perform calls, one after another. -/
def run (calls : List (FaultyCall K)) (simulation : FaultySimulation K) :
    Option (FaultySimulation K) :=
  calls.foldlM apply simulation

end FaultySimulation

/-- What a replayed circuit indexes: a row of the frames, a row of the outcome deltas, the frames of a
shot at a qubit without a check, or a noiseless outcome of a shot. -/
inductive FrameAccess
  | frameRow (qubit : ℕ)
  | outcomeRow (outcome : ℕ)
  | negate (qubit shot : ℕ)
  | noiselessOutcome (shot outcome : ℕ)
deriving DecidableEq

/-- An index is in range of what is allocated. -/
def FrameAccess.InRange (qubitCount outcomeCount shotCount : ℕ) : FrameAccess → Prop
  | .frameRow qubit => qubit < qubitCount
  | .outcomeRow outcome => outcome < outcomeCount
  | .negate qubit shot => qubit < qubitCount ∧ shot < shotCount
  | .noiselessOutcome shot outcome => shot < shotCount ∧ outcome < outcomeCount

instance (qubitCount outcomeCount shotCount : ℕ) :
    DecidablePred (FrameAccess.InRange qubitCount outcomeCount shotCount)
  | .frameRow _ => inferInstanceAs (Decidable (_ < _))
  | .outcomeRow _ => inferInstanceAs (Decidable (_ < _))
  | .negate _ _ => inferInstanceAs (Decidable (_ ∧ _))
  | .noiselessOutcome _ _ => inferInstanceAs (Decidable (_ ∧ _))

def PauliUnitary.qubits (pauli : PauliUnitary) : List ℕ :=
  pauli.xBits.support ++ pauli.zBits.support

/-- The qubits of a gate whose frames its rule reads or writes. -/
def gateQubits (op : UnitaryOp) (qubits : List ℕ) : List ℕ :=
  match op with
  | .I | .X | .Y | .Z => []
  | .Hadamard | .SqrtZ | .SqrtZInv | .SqrtX | .SqrtXInv | .SqrtY | .SqrtYInv => qubits.take 1
  | .ControlledX | .ControlledZ | .Swap | .PrepareBell => qubits.take 2

def Instruction.frameRows : Instruction → List ℕ
  | .unitary opcode qubits => gateQubits opcode qubits
  | .clifford _ qubits => qubits
  | .pauli _ => []
  | .pauliExp observable => observable.qubits
  | .permute _ qubits => qubits
  | .controlledPauli control target => control.qubits ++ target.qubits
  | .measure observable _ => observable.qubits
  | .allocateRandomBit _ => []
  | .conditionalPauli observable _ _ => observable.qubits
  | .noise => []

def Instruction.outcomeRows (nextOutcomeId : ℕ) : Instruction → List ℕ
  | .measure _ _ => [nextOutcomeId]
  | .conditionalPauli _ outcomes _ => outcomes
  | _ => []

/-- The number of outcomes that an instruction records. -/
def Instruction.outcomeCount : Instruction → ℕ
  | .measure _ _ => 1
  | .allocateRandomBit _ => 1
  | _ => 0

/-- What an instruction indexes. -/
def Instruction.accesses (nextOutcomeId : ℕ) (instruction : Instruction) : List FrameAccess :=
  instruction.frameRows.map .frameRow ++ (instruction.outcomeRows nextOutcomeId).map .outcomeRow

/-- What the noiseless outcomes of shots and the generators are. -/
structure SamplingInput (K : Type) [Zero K] [One K] [Preorder K] where
  shotCount : ℕ
  branches : ℕ → Bits
  rng : ℕ → ℕ → Draw K
  correlatedRng : ℕ → ℕ → Draw K

section Sampling

variable {K : Type} [Zero K] [One K] [LinearOrder K] (functions : SamplingFunctions K)

/-- What flipping a depolarizing fault in a shot indexes. -/
def depolarizingAccesses (qubits : List ℕ) (word shot : ℕ) : List FrameAccess :=
  let bits := sampleNonIdentityPauliBits qubits.length word
  (qubitsOfBits qubits bits 0 ++ qubitsOfBits qubits bits 1).map fun qubit => .negate qubit shot

/-- What applying a Pauli to a shot indexes. -/
def pauliAccesses (pauli : PauliUnitary) (shot : ℕ) : List FrameAccess :=
  pauli.qubits.map fun qubit => .negate qubit shot

/-- What the condition of a fault indexes. -/
def conditionAccesses (condition : Option OutcomeCondition) (shot : ℕ) : List FrameAccess :=
  condition.elim [] fun condition => condition.outcomes.map fun id => .noiselessOutcome shot id

/-- A fault that is drawn occurs in a shot. -/
def occurs (condition : Option OutcomeCondition) (outcomes : List Bool) : Bool :=
  condition.elim true fun condition => condition.isSatisfied outcomes

/-- What a fault that occurs in a shot indexes. -/
def PauliFault.shotAccesses (fault : PauliFault K) (draw : Draw K) (shot : ℕ) : List FrameAccess :=
  match fault.condition, fault.distribution with
  | none, .depolarizingOnQubits qubits => depolarizingAccesses qubits draw.word shot
  | _, distribution => (distribution.sample functions draw).elim [] fun pauli =>
    pauliAccesses pauli shot

/-- What the loop over the shots of a fault indexes; each round goes on at least one shot. -/
def injectNoise (fault : PauliFault K) (shotCount : ℕ) (outcomes : ℕ → List Bool)
    (draws : ℕ → Draw K) :
    ℕ → ℕ → ℕ → List FrameAccess
  | 0, _, _ => []
  | fuel + 1, round, start =>
    let draw := draws round
    let shot := start + functions.nextSkip fault.probability draw.skip
    if shotCount ≤ shot then []
    else
      conditionAccesses fault.condition shot ++
        ((if occurs fault.condition (outcomes shot) then
          fault.shotAccesses functions draw shot else []) ++
            injectNoise fault shotCount outcomes draws fuel (round + 1) (shot + 1))

/-- What a fault indexes; its generator is shared by the faults with its correlation. -/
def PauliFault.accesses (fault : PauliFault K) (input : SamplingInput K) (outcomes : ℕ → List Bool)
    (position : ℕ) :
    List FrameAccess :=
  if fault.probability ≤ 0 then []
  else
    injectNoise functions fault input.shotCount outcomes
      (fault.correlationId.elim (input.rng position) input.correlatedRng) (input.shotCount + 1) 0 0

/-- What a circuit indexes when it is replayed. -/
def replayAccesses (input : SamplingInput K) (outcomes : ℕ → List Bool) :
    ℕ → ℕ → List (FaultyInstruction K) → List FrameAccess
  | _, _, [] => []
  | nextOutcomeId, position, .op instruction :: rest =>
    instruction.accesses nextOutcomeId ++
      replayAccesses input outcomes (nextOutcomeId + instruction.outcomeCount) (position + 1) rest
  | nextOutcomeId, position, .noise fault :: rest =>
    fault.accesses functions input outcomes position ++
      replayAccesses input outcomes nextOutcomeId (position + 1) rest

/-- What sampling indexes. -/
def FaultySimulation.sampleAccesses (simulation : FaultySimulation K) (input : SamplingInput K) :
    List FrameAccess :=
  replayAccesses functions input
    (fun shot => simulation.noiseless.outcomeVector (input.branches shot)) 0 0 simulation.circuit

end Sampling

end QdkEc
