import QdkEc.Paulimer.CliffordOp

/-!
# Circuits

This module models the instructions that a simulation records and replays.
-/

namespace QdkEc

/-- The instructions of a circuit; the faults of a noise instruction are sampled elsewhere. -/
inductive Instruction where
  | unitary (opcode : UnitaryOp) (qubits : List ℕ)
  | clifford (clifford : CliffordUnitary) (qubits : List ℕ)
  | pauli (pauli : PauliUnitary)
  | pauliExp (pauli : PauliUnitary)
  | permute (permutation qubits : List ℕ)
  | controlledPauli (control target : PauliUnitary)
  | measure (observable : PauliUnitary) (outcomeId : ℕ)
  | allocateRandomBit (outcomeId : ℕ)
  | conditionalPauli (pauli : PauliUnitary) (outcomes : List ℕ) (parity : Bool)
  | noise

namespace Instruction

/-- The tableau operation of a unitary instruction. -/
def cliffordOp : Instruction → Option CliffordOp
  | .unitary opcode qubits => some (.leftMul opcode qubits)
  | .clifford gate qubits => some (.leftMulClifford gate qubits)
  | .pauli p => some (.leftMulPauli p)
  | .pauliExp p => some (.leftMulPauliExp p)
  | .permute permutation qubits => some (.leftMulPermutation permutation qubits)
  | .controlledPauli control target => some (.leftMulControlledPauli control target)
  | _ => none

/-- The instruction is unitary and its arguments meet its preconditions on `n` qubits. -/
def UnitaryOn (n : ℕ) (instruction : Instruction) : Prop :=
  ∃ op, instruction.cliffordOp = some op ∧ op.WellFormed n

instance (n : ℕ) (instruction : Instruction) : Decidable (instruction.UnitaryOn n) :=
  match h : instruction.cliffordOp with
  | some op =>
    decidable_of_iff (op.WellFormed n)
      ⟨fun hop => ⟨op, h, hop⟩, fun ⟨_, hop, hwf⟩ => by
        rw [h] at hop
        cases hop
        exact hwf⟩
  | none => isFalse fun ⟨_, hop, _⟩ => by
    rw [h] at hop
    cases hop

end Instruction

end QdkEc
