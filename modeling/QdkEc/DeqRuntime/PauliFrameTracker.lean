import QdkEc.DeqRuntime.BitMatrix
import Mathlib.Data.List.AList

/-!
# Pauli frame tracker

This module models the tracker of the corrected readouts and residuals of gadgets:
adding a gadget with its connections and remote conditional corrections, loading raw
data, and loading a decoder's correction, which recomputes the frames of the gadgets
that depend on it.  `none` is a panic: a failed assertion, a missing key or an index
out of range.
-/

namespace QdkEc

/-- A map from identifiers. -/
abbrev GidMap (A : Type) :=
  AList fun _ : ℕ => A

/-- One end of a connection between the ports of two gadgets. -/
structure Connector where
  gid : ℕ
  port : ℕ
deriving DecidableEq

/-- A readout of another gadget. -/
structure RemoteReadout where
  gid : ℕ
  readoutIndex : ℕ
deriving DecidableEq

/-- The corrected readouts and the output observables of a gadget. -/
structure PauliFrame where
  readouts : List Bool
  residual : List Bool
deriving DecidableEq

/-- What the tracker stores about one gadget. -/
structure PauliFrameGadget where
  frame : Option PauliFrame
  rawReadouts : Option (List Bool)
  rawMeasurements : Option (List Bool)
  decoded : Option PauliFrame
  correctionPropagation : AlignedBitMatrix
  readoutPropagation : AlignedBitMatrix
  logicalCorrection : AlignedBitMatrix
  physicalCorrection : AlignedBitMatrix
  remoteConditionalCorrection : Option (List RemoteReadout × AlignedBitMatrix)
  inputs : List Connector
  outputs : List (Option Connector)
  remoteDependents : List ℕ
  outputBias : List ℕ

/-- Corrections that depend on the readouts of other gadgets. -/
structure RemoteConditionalCorrection where
  remoteReadouts : List RemoteReadout
  correction : Option SparseBitMatrix

/-- A change of the matrices of one gadget. -/
structure GadgetModifier where
  correctionPropagationMod : Option BitMatrixModifier
  readoutPropagationMod : Option BitMatrixModifier
  logicalCorrectionMod : Option BitMatrixModifier
  remoteConditionalCorrection : Option RemoteConditionalCorrection
  physicalCorrectionMod : Option BitMatrixModifier

/-- What the tracker reads of the type of a gadget: the port types of its ports, the numbers of its
measurements and readouts, and its matrices. -/
structure GadgetType where
  inputs : List ℕ
  outputs : List ℕ
  measurementCount : ℕ
  readoutCount : ℕ
  correctionPropagation : Option SparseBitMatrix
  readoutPropagation : Option SparseBitMatrix
  logicalCorrection : Option SparseBitMatrix
  physicalCorrection : Option SparseBitMatrix

/-- The tracker. -/
structure PauliFrameTracker where
  gadgets : GidMap PauliFrameGadget

/-- The readouts that changed, by gadget. -/
abbrev PauliFrameUpdates :=
  GidMap (List Bool)

namespace PauliFrameGadget

variable (gadget : PauliFrameGadget)

/-- The number of readouts. -/
def numReadouts : ℕ :=
  gadget.logicalCorrection.columnCount

/-- The number of measurements. -/
def numMeasurements : ℕ :=
  gadget.physicalCorrection.columnCount

def numOutputObservables : ℕ :=
  gadget.correctionPropagation.rowCount

/-- The end of the output observables of a port. -/
def residualEnd (port : ℕ) : Option ℕ :=
  if port < gadget.outputBias.length - 1 then gadget.outputBias[port + 1]?
  else some gadget.numOutputObservables

/-- The output observables of one port. -/
def getResidualSlice (residual : List Bool) (port : ℕ) :
    Option (List Bool) := do
  let start ← gadget.outputBias[port]?
  let stop ← gadget.residualEnd port
  (List.range' start (stop - start)).mapM fun i => residual[i]?

/-- The frame of a gadget from its correction, its input observables and the remote readouts. -/
def computeFrame (decoded : PauliFrame) (inputObservables : List Bool)
    (remoteReadoutsVec : Option (List Bool)) :
    Option PauliFrame := do
  let inputObservables := inputObservables ++ [true]
  let residual ← gadget.correctionPropagation.mul inputObservables
  let rawMeasurements ← gadget.rawMeasurements
  let residual ← xorAssign residual (← gadget.physicalCorrection.mul rawMeasurements)
  let readouts ← gadget.rawReadouts
  let readouts ← xorAssign readouts decoded.readouts
  let readouts ← xorAssign readouts (← gadget.readoutPropagation.mul inputObservables)
  let residual ← xorAssign residual (← gadget.logicalCorrection.mul readouts)
  let residual ← match gadget.remoteConditionalCorrection with
    | some (_, correctionMatrix) => do
        xorAssign residual (← correctionMatrix.mul (← remoteReadoutsVec))
    | none => some residual
  let residual ← xorAssign residual decoded.residual
  some ⟨readouts, residual⟩

end PauliFrameGadget

namespace PauliFrameTracker

/-- A tracker without gadgets. -/
def new : PauliFrameTracker where
  gadgets := ∅

/-- Change the stored gadget of an identifier; `none` is a missing gadget. -/
def modify (tracker : PauliFrameTracker) (gid : ℕ)
    (f : PauliFrameGadget → Option PauliFrameGadget) :
    Option PauliFrameTracker := do
  let gadget ← tracker.gadgets.lookup gid
  let gadget ← f gadget
  some ⟨tracker.gadgets.insert gid gadget⟩

/-- The first output observable of every port, and the number of all output observables. -/
def outputBiases (portTypes : ℕ → Option ℕ) (outputs : List ℕ) : Option (List ℕ × ℕ) :=
  outputs.foldlM (fun biases port => do
    let observables ← portTypes port
    some (biases.1 ++ [biases.2], biases.2 + observables)) ([], 0)

/-- A matrix of a gadget type after the modifier of the gadget. -/
def modifiedMatrix (matrix : Option SparseBitMatrix) (gadgetModifier : Option GadgetModifier)
    (mod : GadgetModifier → Option BitMatrixModifier) :
    Option AlignedBitMatrix := do
  let matrix ← optionalSparseToDense matrix
  match gadgetModifier.bind mod with
  | some modifier => applyModifier matrix modifier
  | none => some matrix

def remoteConditionalMatrix (gadgetModifier : Option GadgetModifier) :
    Option (Option (List RemoteReadout × AlignedBitMatrix)) :=
  match gadgetModifier.bind GadgetModifier.remoteConditionalCorrection with
  | some remote => do
      let matrix ← optionalSparseToDense remote.correction
      some (some (remote.remoteReadouts, matrix))
  | none => some none

/-- The gadget that `addGadget` stores, with the assertions on its matrices. -/
def buildGadget (gadgetType : GadgetType) (gadgetModifier : Option GadgetModifier)
    (portTypes : ℕ → Option ℕ) (connectors : List Connector) :
    Option PauliFrameGadget := do
  guard (gadgetType.inputs.length = connectors.length)
  let biases ← outputBiases portTypes gadgetType.outputs
  let correctionPropagation ← modifiedMatrix gadgetType.correctionPropagation gadgetModifier
    GadgetModifier.correctionPropagationMod
  let readoutPropagation ← modifiedMatrix gadgetType.readoutPropagation gadgetModifier
    GadgetModifier.readoutPropagationMod
  let logicalCorrection ← modifiedMatrix gadgetType.logicalCorrection gadgetModifier
    GadgetModifier.logicalCorrectionMod
  let physicalCorrection ← modifiedMatrix gadgetType.physicalCorrection gadgetModifier
    GadgetModifier.physicalCorrectionMod
  let remoteConditionalCorrection ← remoteConditionalMatrix gadgetModifier
  guard (biases.2 = correctionPropagation.rowCount)
  guard (logicalCorrection.rowCount = correctionPropagation.rowCount)
  guard (gadgetType.readoutCount = logicalCorrection.columnCount)
  guard (gadgetType.measurementCount = physicalCorrection.columnCount)
  guard (readoutPropagation.rowCount = logicalCorrection.columnCount)
  guard (correctionPropagation.columnCount ≠ 0 ∧
    readoutPropagation.columnCount = correctionPropagation.columnCount - 1 + 1)
  some {
    frame := none
    rawReadouts := none
    rawMeasurements := none
    decoded := none
    correctionPropagation := correctionPropagation
    readoutPropagation := readoutPropagation
    logicalCorrection := logicalCorrection
    physicalCorrection := physicalCorrection
    remoteConditionalCorrection := remoteConditionalCorrection
    inputs := connectors
    outputs := List.replicate gadgetType.outputs.length none
    remoteDependents := []
    outputBias := biases.1 }

/-- Tell the peer of an input port about the gadget. -/
def connect (gid : ℕ) (tracker : PauliFrameTracker) (connection : Connector × ℕ) :
    Option PauliFrameTracker :=
  tracker.modify connection.1.gid fun peer =>
    if connection.1.port < peer.outputs.length then
      some { peer with
        outputs := peer.outputs.set connection.1.port (some ⟨gid, connection.2⟩) }
    else none

/-- Tell a gadget that another one depends on one of its readouts. -/
def registerRemote (gid : ℕ) (tracker : PauliFrameTracker) (remoteRef : RemoteReadout) :
    Option PauliFrameTracker :=
  tracker.modify remoteRef.gid fun remote =>
    some { remote with remoteDependents := remote.remoteDependents ++ [gid] }

def addGadget (tracker : PauliFrameTracker) (gid : ℕ) (gadgetType : GadgetType)
    (gadgetModifier : Option GadgetModifier) (portTypes : ℕ → Option ℕ)
    (connectors : List Connector) :
    Option PauliFrameTracker := do
  guard (gid ∉ tracker.gadgets)
  let gadget ← buildGadget gadgetType gadgetModifier portTypes connectors
  let tracker : PauliFrameTracker := ⟨tracker.gadgets.insert gid gadget⟩
  let tracker ← connectors.zipIdx.foldlM (connect gid) tracker
  match gadget.remoteConditionalCorrection with
  | some (remoteRefs, _) => remoteRefs.foldlM (registerRemote gid) tracker
  | none => some tracker

def loadRaw (tracker : PauliFrameTracker) (gid : ℕ) (rawReadouts rawMeasurements : List Bool) :
    Option PauliFrameTracker :=
  tracker.modify gid fun gadget => do
    guard (gadget.rawReadouts = none)
    guard (gadget.rawMeasurements = none)
    guard (gadget.numReadouts = rawReadouts.length)
    guard (gadget.numMeasurements = rawMeasurements.length)
    some { gadget with rawReadouts := some rawReadouts, rawMeasurements := some rawMeasurements }

/-- The observables that enter through the input ports; the inner `none` is a peer without a
frame. -/
def gatherInputs (tracker : PauliFrameTracker) :
    List Connector → Option (Option (List Bool))
  | [] => some (some [])
  | peer :: peers => do
      let peerGadget ← tracker.gadgets.lookup peer.gid
      match peerGadget.frame with
      | none => some none
      | some frame =>
        let slice ← peerGadget.getResidualSlice frame.residual peer.port
        let rest ← tracker.gatherInputs peers
        some (rest.map (slice ++ ·))

/-- The remote readouts of a conditional correction; the inner `none` is a gadget without a
frame. -/
def gatherRemoteReadouts (tracker : PauliFrameTracker) :
    List RemoteReadout → Option (Option (List Bool))
  | [] => some (some [])
  | remoteRef :: remoteRefs => do
      let remoteGadget ← tracker.gadgets.lookup remoteRef.gid
      match remoteGadget.frame with
      | none => some none
      | some frame =>
        let value ← frame.readouts[remoteRef.readoutIndex]?
        let rest ← tracker.gatherRemoteReadouts remoteRefs
        some (rest.map (value :: ·))

/-- The frame that a gadget has now; the inner `none` is a gadget that is not ready. -/
def currentFrame (tracker : PauliFrameTracker) (gadget : PauliFrameGadget) :
    Option (Option PauliFrame) :=
  match gadget.decoded with
  | none => some none
  | some decoded => do
      match ← tracker.gatherInputs gadget.inputs with
      | none => some none
      | some inputObservables =>
        match gadget.remoteConditionalCorrection with
        | none => do
            let frame ← gadget.computeFrame decoded inputObservables none
            some (some frame)
        | some (remoteRefs, _) => do
            match ← tracker.gatherRemoteReadouts remoteRefs with
            | none => some none
            | some values =>
              let frame ← gadget.computeFrame decoded inputObservables (some values)
              some (some frame)

/-- Store the frame of a gadget. -/
def setFrame (tracker : PauliFrameTracker) (gid : ℕ) (gadget : PauliFrameGadget)
    (frame : PauliFrame) :
    PauliFrameTracker where
  gadgets := tracker.gadgets.insert gid { gadget with frame := some frame }

def binarBitvecToBitVector (bitVec : List Bool) (length : ℕ) : List Bool :=
  (List.range length).map fun i => bitVec.getD i false

/-- Recompute the frame of a gadget and, when it is another one, those of the gadgets that depend on
it; `none` is also a recursion that is deeper than its bound. -/
def propagateFrom :
    ℕ → PauliFrameTracker × PauliFrameUpdates → ℕ → Option (PauliFrameTracker × PauliFrameUpdates)
  | 0, _, _ => none
  | depth + 1, (tracker, updates), gid => do
      let gadget ← tracker.gadgets.lookup gid
      match ← tracker.currentFrame gadget with
      | none => some (tracker, updates)
      | some frame =>
        if gadget.frame = some frame then some (tracker, updates)
        else
          let readouts := binarBitvecToBitVector frame.readouts gadget.numReadouts
          (gadget.outputs.reduceOption.map Connector.gid ++ gadget.remoteDependents).foldlM
            (propagateFrom depth) (tracker.setFrame gid gadget frame, updates.insert gid readouts)

/-- Load the correction of a gadget; the depth of the recursion is bounded by the number of
gadgets. -/
def loadCorrection (tracker : PauliFrameTracker) (gid : ℕ) (residual readoutFlips : List Bool) :
    Option (PauliFrameTracker × PauliFrameUpdates) := do
  let tracker ← tracker.modify gid fun gadget => do
    guard gadget.rawReadouts.isSome
    some { gadget with decoded := some ⟨readoutFlips, residual⟩ }
  propagateFrom tracker.gadgets.keys.length (tracker, ∅) gid

end PauliFrameTracker

end QdkEc
