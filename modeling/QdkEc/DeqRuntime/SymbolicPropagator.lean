import QdkEc.DeqRuntime.PauliFrameTracker
import QdkEc.Lib.XorGraph

/-!
# Symbolic propagation of corrections

This module models the propagator that keeps, for every readout and every output
observable of every gadget, the sum of the correction bits on which it depends.  The
sums are nodes of one shared graph, simplified when they are built and expanded when
they are asked for, without the gadgets that are not active.  `none` is a panic.
-/

namespace QdkEc

/-- One bit of the correction of a gadget. -/
inductive CorrectionBasis
  | readout (gid index : ℕ)
  | residual (gid index : ℕ)
deriving DecidableEq

/-- The gadget of a correction bit. -/
def CorrectionBasis.gid : CorrectionBasis → ℕ
  | readout gid _ => gid
  | residual gid _ => gid

/-- A symbolic expression over the correction bits, owned by a gadget. -/
abbrev SymbolicNode :=
  XorNode CorrectionBasis ℕ

/-- The expressions of one gadget. -/
structure SymbolicGadget where
  readoutNodes : List ℕ
  residualNodes : List ℕ
  outputBias : List ℕ

/-- The output observables of a port; `none` is a range out of bounds. -/
def SymbolicGadget.residualSlice (gadget : SymbolicGadget) (port : ℕ) :
    Option (List ℕ) := do
  let start ← gadget.outputBias[port]?
  let stop := gadget.outputBias.getD (port + 1) gadget.residualNodes.length
  guard (start ≤ stop ∧ stop ≤ gadget.residualNodes.length)
  some ((gadget.residualNodes.drop start).take (stop - start))

/-- The propagator. -/
structure PauliFrameSymbolicPropagator where
  nodes : List SymbolicNode
  gadgets : GidMap SymbolicGadget

/-- The effects of correction bits on targets. -/
structure LogicalFlipCache where
  basisEffects : AList fun _ : CorrectionBasis => List ℕ

namespace PauliFrameSymbolicPropagator

/-- A propagator without gadgets. -/
def new : PauliFrameSymbolicPropagator where
  nodes := [.zero]
  gadgets := ∅

/-- The node of a new correction bit. -/
def basis (nodes : List SymbolicNode) (component : CorrectionBasis) : List SymbolicNode × ℕ :=
  (nodes ++ [.basis component], nodes.length)

/-- Keep the terms that occur an odd number of times in a sorted list, which starts with a run of
`count` terms. -/
def reduceRun (term count : ℕ) :
    List ℕ → List ℕ
  | [] => if count % 2 = 1 then [term] else []
  | next :: terms =>
    if next = term then reduceRun term (count + 1) terms
    else if count % 2 = 1 then term :: reduceRun next 1 terms
    else reduceRun next 1 terms

/-- The terms of a sum, sorted, without zeros and without terms that cancel. -/
def reduceTerms (terms : List ℕ) : List ℕ :=
  match (terms.filter fun term => term ≠ 0).insertionSort (· ≤ ·) with
  | [] => []
  | term :: rest => reduceRun term 1 rest

/-- The node of a sum: zero, its only term, or a new node. -/
def xor (nodes : List SymbolicNode) (gid : ℕ) (terms : List ℕ) : List SymbolicNode × ℕ :=
  match reduceTerms terms with
  | [] => (nodes, 0)
  | [node] => (nodes, node)
  | reduced => (nodes ++ [.xor gid reduced], nodes.length)

def rowTerms (matrix : AlignedBitMatrix) (inputs : List ℕ) (row : ℕ) : List ℕ :=
  (inputs.zipIdx.filter fun input => matrix.get row input.2).map Prod.fst

/-- Sums one after the other, each of which may add nodes. -/
def xorRows (gid : ℕ) (terms : ℕ → List ℕ) :
    List SymbolicNode → List ℕ → List SymbolicNode × List ℕ
  | nodes, [] => (nodes, [])
  | nodes, row :: rows =>
    let next := xor nodes gid (terms row)
    let rest := xorRows gid terms next.1 rows
    (rest.1, next.2 :: rest.2)

/-- The nodes of the product of a matrix and a vector of nodes. -/
def applyMatrix (nodes : List SymbolicNode) (gid : ℕ) (matrix : AlignedBitMatrix)
    (inputs : List ℕ) :
    Option (List SymbolicNode × List ℕ) :=
  if matrix.columnCount = inputs.length then
    some (xorRows gid (rowTerms matrix inputs) nodes (List.range matrix.rowCount))
  else none

/-- Sums with a new correction bit each, one after the other. -/
def xorBases (gid : ℕ) (component : ℕ → CorrectionBasis) (terms : ℕ → List ℕ) :
    List SymbolicNode → List ℕ → List SymbolicNode × List ℕ
  | nodes, [] => (nodes, [])
  | nodes, index :: indices =>
    let fresh := basis nodes (component index)
    let next := xor fresh.1 gid (terms index ++ [fresh.2])
    let rest := xorBases gid component terms next.1 indices
    (rest.1, next.2 :: rest.2)

def remoteNodes (propagator : PauliFrameSymbolicPropagator) (nodes : List SymbolicNode) (gid : ℕ)
    (gadget : PauliFrameGadget) :
    Option (List SymbolicNode × List ℕ) :=
  match gadget.remoteConditionalCorrection with
  | some (remoteReadouts, correctionMatrix) => do
      let remoteInputs ← remoteReadouts.mapM fun remote => do
        let remoteGadget ← propagator.gadgets.lookup remote.gid
        remoteGadget.readoutNodes[remote.readoutIndex]?
      applyMatrix nodes gid correctionMatrix remoteInputs
  | none => some (nodes, List.replicate gadget.numOutputObservables 0)

def addGadget (propagator : PauliFrameSymbolicPropagator) (gid : ℕ) (gadget : PauliFrameGadget) :
    Option PauliFrameSymbolicPropagator := do
  guard (gid ∉ propagator.gadgets)
  let slices ← gadget.inputs.mapM fun connector => do
    let peer ← propagator.gadgets.lookup connector.gid
    peer.residualSlice connector.port
  let inputNodes := slices.flatten ++ [0]
  let readouts ← applyMatrix propagator.nodes gid gadget.readoutPropagation inputNodes
  let readouts := xorBases gid (.readout gid) (fun i => [readouts.2.getD i 0]) readouts.1
    (List.range readouts.2.length)
  let correction ← applyMatrix readouts.1 gid gadget.correctionPropagation inputNodes
  let logical ← applyMatrix correction.1 gid gadget.logicalCorrection readouts.2
  let remote ← propagator.remoteNodes logical.1 gid gadget
  guard (gadget.numOutputObservables ≤ logical.2.length ∧
    gadget.numOutputObservables ≤ remote.2.length)
  let residuals := xorBases gid (.residual gid)
    (fun i => [correction.2.getD i 0, logical.2.getD i 0, remote.2.getD i 0]) remote.1
    (List.range gadget.numOutputObservables)
  some {
    nodes := residuals.1
    gadgets := propagator.gadgets.insert gid {
      readoutNodes := readouts.2
      residualNodes := residuals.2
      outputBias := gadget.outputBias } }

/-- The gadgets that count: all of them, or the active ones. -/
def included (activeGids : Option (List ℕ)) (gid : ℕ) : Bool :=
  activeGids.all fun gids => gid ∈ gids

/-- The correction bits on which a node depends; the number of turns of the loop is bounded by the
weight of its queue. -/
def components (propagator : PauliFrameSymbolicPropagator) (root : ℕ)
    (activeGids : Option (List ℕ)) :
    Option (List CorrectionBasis) :=
  XorNode.collect CorrectionBasis.gid (included activeGids) propagator.nodes (2 ^ root + 1)
    ([root], [root]) []

/-- The node of a readout or of an output observable. -/
def targetNode (propagator : PauliFrameSymbolicPropagator) :
    CorrectionBasis → Option ℕ
  | .readout gid index => do
      let gadget ← propagator.gadgets.lookup gid
      gadget.readoutNodes[index]?
  | .residual gid index => do
      let gadget ← propagator.gadgets.lookup gid
      gadget.residualNodes[index]?

/-- Note that correction bits have an effect on a target. -/
def addEffects (effects : AList fun _ : CorrectionBasis => List ℕ) (targetIndex : ℕ)
    (bits : List CorrectionBasis) :
    AList fun _ : CorrectionBasis => List ℕ :=
  bits.foldl (fun effects component =>
    effects.insert component ((effects.lookup component).getD [] ++ [targetIndex])) effects

/-- The effects of all correction bits on targets, by active gadgets. -/
def logicalFlipCache (propagator : PauliFrameSymbolicPropagator) (gadgetIds : List ℕ)
    (targets : List CorrectionBasis) :
    Option LogicalFlipCache := do
  let effects ← targets.zipIdx.foldlM (fun effects target => do
    let root ← propagator.targetNode target.1
    let bits ← propagator.components root (some gadgetIds)
    some (addEffects effects target.2 bits)) ∅
  some ⟨effects⟩

end PauliFrameSymbolicPropagator

namespace LogicalFlipCache

variable (cache : LogicalFlipCache)

/-- Toggle the targets on which a correction bit has an effect. -/
def xorBasisEffect (effect : List ℕ) (component : CorrectionBasis) : List ℕ :=
  ((cache.basisEffects.lookup component).getD []).foldl (fun effect target =>
    if target ∈ effect then effect.erase target else target :: effect) effect

/-- The targets that correction bits of one gadget flip together, in order. -/
def propagatedLogicalFlips (correctionGid : ℕ) (residualIndices readoutIndices : List ℕ) : List ℕ :=
  let effect := (readoutIndices.map (CorrectionBasis.readout correctionGid)).foldl
    cache.xorBasisEffect []
  let effect := (residualIndices.map (CorrectionBasis.residual correctionGid)).foldl
    cache.xorBasisEffect effect
  effect.insertionSort (· ≤ ·)

end LogicalFlipCache

end QdkEc
