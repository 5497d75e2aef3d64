import QdkEc.Binar.EchelonSolve
import QdkEc.Lib.PauliSubgroup
import QdkEc.Paulimer.PauliUnitary

/-!
# Pauli groups

This module models `PauliGroup`: a list of generators, their standard form from
the echelon form of the matrix of their bits, the phases that the group
contains, and factorizations of elements.  A bit vector over the support stands
for a Pauli up to phase.
-/

namespace QdkEc

open PhasedPauli

namespace PauliUnitary

/-- The qubits on which a Pauli acts, in ascending order. -/
def support (p : PauliUnitary) : List ℕ :=
  (Bits.fromIndices (p.xBits.support ++ p.zBits.support)).support

/-- The number of qubits on which a Pauli acts. -/
def weight (p : PauliUnitary) : ℕ :=
  p.support.length

end PauliUnitary

/-- A group of Paulis, given by generators. -/
structure PauliGroup where
  generators : List PauliUnitary

/-- Generators in standard form, with the echelon form they come from. -/
structure StandardForm where
  generators : List PauliUnitary
  echelonForm : EchelonForm

namespace PauliGroup

/-- The qubits on which one of the operators acts, in ascending order. -/
def supportOf (operators : List PauliUnitary) : List ℕ :=
  (Bits.fromIndices (operators.flatMap PauliUnitary.support)).support

/-- Set the entries of a row at the positions that qubits have in the support. -/
def setQubits (supportedBy : List ℕ) (rowIndex offset : ℕ) (qubits : List ℕ)
    (m : AlignedBitMatrix) :
    AlignedBitMatrix :=
  qubits.foldl (fun m index => m.set rowIndex (offset + supportedBy.idxOf index) true) m

/-- The matrix whose rows hold the `X` bits and then the `Z` bits of the generators. -/
def asBitmatrix (generators : List PauliUnitary) (supportedBy : List ℕ) : AlignedBitMatrix :=
  generators.zipIdx.foldl (fun bitmatrix (generator, rowIndex) =>
    setQubits supportedBy rowIndex supportedBy.length generator.zBits.support
      (setQubits supportedBy rowIndex 0 generator.xBits.support bitmatrix))
    (.zeros generators.length (2 * supportedBy.length))

/-- The Pauli of a row with a phase. -/
def asSparsePauli (bits : Bits) (phase : UInt8) (support : List ℕ) : PauliUnitary where
  xBits := Bits.fromIndices
    ((bits.support.filter (· < support.length)).map fun index => support.getD index 0)
  zBits := Bits.fromIndices
    ((bits.support.filter (support.length ≤ ·)).map fun index =>
      support.getD (index - support.length) 0)
  xzPhaseExp := phase

/-- The Paulis of the rows of a matrix, without phases. -/
def asSparsePaulis (bitmatrix : AlignedBitMatrix) (support : List ℕ) : List PauliUnitary :=
  (List.range bitmatrix.rowCount).map fun i => asSparsePauli (bitmatrix.row i) 0 support

/-- The product of the elements at some indices. -/
def productOfSparse (elements : List PauliUnitary) (indicatedBy : Bits) : PauliUnitary :=
  indicatedBy.support.foldl (fun result index =>
    result.mulAssignRight (elements.getD index .neutralElement)) .neutralElement

/-- No element anticommutes with a later one. -/
def areAllCommuting : List PauliUnitary → Bool
  | [] => true
  | a :: elements => elements.all (fun b => !a.antiCommutesWith b) && areAllCommuting elements

/-- The modulus of the phases that the zero rows give, from the last row on. -/
def phaseModulusFrom (echelonMatrix : AlignedBitMatrix) (phases : List UInt8) :
    List ℕ → UInt8 → UInt8
  | [], phaseModulus => phaseModulus
  | rowIndex :: rowIndexes, phaseModulus =>
    if 0 < (echelonMatrix.row rowIndex).support.length then phaseModulus
    else if phases.getD rowIndex 0 = 2 then
      phaseModulusFrom echelonMatrix phases rowIndexes (min phaseModulus 2)
    else if phases.getD rowIndex 0 % 2 = 1 then 1
    else phaseModulusFrom echelonMatrix phases rowIndexes phaseModulus

/-- The modulus of the phases of the group as far as the relations between generators give it. -/
def phaseModulusOf (echelonMatrix : AlignedBitMatrix) (phases : List UInt8) : UInt8 :=
  phaseModulusFrom echelonMatrix phases (List.range echelonMatrix.rowCount).reverse 4

/-- The nonzero rows of the echelon matrix as Paulis with phases reduced by the modulus. -/
def nonzeroGenerators (echelonMatrix : AlignedBitMatrix) (phases : List UInt8)
    (phaseModulus : UInt8) (support : List ℕ) :
    List PauliUnitary :=
  (((List.range echelonMatrix.rowCount).map fun i =>
    (phases.getD i 0, echelonMatrix.row i)).takeWhile
    fun (_, bits) => bits.support.length != 0).map
      fun (exponent, bits) => asSparsePauli bits (exponent % phaseModulus) support

def asStandardGenerators (echelonMatrix : AlignedBitMatrix) (phases : List UInt8)
    (support : List ℕ) :
    List PauliUnitary :=
  let phaseModulus := phaseModulusOf echelonMatrix phases
  let standardGenerators := nonzeroGenerators echelonMatrix phases phaseModulus support
  let hasOrderFour := standardGenerators.any fun g => !g.isOrderTwo
  let reduces := hasOrderFour || !areAllCommuting standardGenerators
  let standardGenerators :=
    if reduces then
      standardGenerators.map fun generator =>
        { generator with xzPhaseExp := PauliUnitary.phaseValue generator.xzPhaseExp % 2 }
    else standardGenerators
  let phaseModulus := if reduces then phaseModulus % 2 else phaseModulus
  if phaseModulus % 4 ≠ 0 ∨ standardGenerators.isEmpty ∧ 0 < echelonMatrix.rowCount then
    standardGenerators ++ [{ PauliUnitary.neutralElement with xzPhaseExp := phaseModulus }]
  else standardGenerators

def standardFormOf (generators : List PauliUnitary) (support : List ℕ) : StandardForm :=
  let echelonForm := EchelonForm.new (asBitmatrix generators support)
  let phases := (List.range echelonForm.transform.rowCount).map fun i =>
    PauliUnitary.phaseValue
      (productOfSparse generators (echelonForm.transform.row i)).xzPhaseExp
  let standardGenerators := asStandardGenerators echelonForm.matrix phases support
  { generators :=
      if standardGenerators.isEmpty then [.neutralElement] else standardGenerators
    echelonForm := echelonForm }

/-- A generator is an imaginary scalar. -/
def generatesImaginaryIdentity (generators : List PauliUnitary) : Bool :=
  generators.any fun g => g.xzPhaseExp &&& 1 != 0 && g.weight == 0

/-- The generators give minus one. -/
def generatesNegativeIdentity (standardGenerators : List PauliUnitary) (allCommute : Bool) : Bool :=
  !allCommute || standardGenerators.any fun g =>
    !g.isOrderTwo || (g.weight == 0 && PauliUnitary.phaseValue g.xzPhaseExp == 2)

/-- The exponents of the scalars that the generators give. -/
def phasesGeneratedBy (standardGenerators : List PauliUnitary) (allCommute : Bool) : List UInt8 :=
  if generatesImaginaryIdentity standardGenerators then [0, 1, 2, 3]
  else if generatesNegativeIdentity standardGenerators allCommute then [0, 2]
  else [0]

variable (group : PauliGroup)

/-- The qubits on which the group acts. -/
def support : List ℕ :=
  supportOf group.generators

def standardForm : StandardForm :=
  standardFormOf group.generators group.support

def standardGenerators : List PauliUnitary :=
  group.standardForm.generators

def echelonForm : EchelonForm :=
  group.standardForm.echelonForm

/-- All elements commute. -/
def isAbelian : Bool :=
  areAllCommuting group.standardGenerators

/-- The dimension of the space of bit vectors of the group. -/
def binaryRank : ℕ :=
  group.echelonForm.pivots.length

/-- The exponents of the scalars in the group. -/
def phases : List UInt8 :=
  phasesGeneratedBy group.standardGenerators group.isAbelian

/-- Factor the Pauli of a row into generators and a scalar. -/
def factorize (row : Bits) (exponent : UInt8) :
    Option (List ℕ × UInt8) := do
  let generatorIndexes ← group.echelonForm.transposeSolve row
  let product := productOfSparse group.generators generatorIndexes
  let remainingPhase := (exponent - PauliUnitary.phaseValue product.xzPhaseExp) % 4
  if group.phases.contains remainingPhase then
    some (generatorIndexes.support, remainingPhase)
  else none

/-- The element acts on qubits of the group only. -/
def isSupported (element : PauliUnitary) : Bool :=
  element.support.all (· ∈ group.support)

/-- Give every supported element the next factorization. -/
def distribute {α : Type*} :
    List Bool → List (Option α) → List (Option α)
  | [], _ => []
  | false :: supported, factorizations => none :: distribute supported factorizations
  | true :: supported, [] => none :: distribute supported []
  | true :: supported, factorization :: factorizations =>
    factorization :: distribute supported factorizations

/-- The generator indices and the scalar of every element. -/
def indexedFactorizationsOf (elements : List PauliUnitary) : List (Option (List ℕ × UInt8)) :=
  let validElements := elements.filter group.isSupported
  let elementBits := asBitmatrix validElements group.support
  let factorizations := validElements.zipIdx.map fun (e, i) =>
    group.factorize (elementBits.row i) (PauliUnitary.phaseValue e.xzPhaseExp)
  distribute (elements.map group.isSupported) factorizations

/-- The generator indices and the scalar of an element. -/
def indexedFactorizationOf (element : PauliUnitary) : Option (List ℕ × UInt8) :=
  (group.indexedFactorizationsOf [element]).head?.join

/-- The factors at some indices, and a scalar. -/
def factorsOf (factorization : List ℕ × UInt8) : List PauliUnitary :=
  let factors := factorization.1.map fun i => group.generators.getD i .neutralElement
  if factorization.2 ≠ 0 then
    factors ++ [{ PauliUnitary.neutralElement with xzPhaseExp := factorization.2 }]
  else factors

/-- The factors of every element. -/
def factorizationsOf (elements : List PauliUnitary) : List (Option (List PauliUnitary)) :=
  (group.indexedFactorizationsOf elements).map fun o => o.map group.factorsOf

/-- The factors of an element. -/
def factorizationOf (element : PauliUnitary) : Option (List PauliUnitary) :=
  (group.factorizationsOf [element]).head?.join

def contains (element : PauliUnitary) : Bool :=
  (group.factorizationOf element).isSome

end PauliGroup

end QdkEc
