import QdkEc.DeqRuntime.JitLibrary

/-!
# The compiler

This module models how a gadget is compiled.  Its finished checks are expanded into
measurements at once, through the output checks of the gadgets at its input ports; its
errors are expanded into checks later, when its output ports are connected and the
gadgets there have resolved their own virtual checks.  The order in which a set of
measurements or checks is enumerated is part of an event, since the program leaves it
open.  `none` is a panic, or an enumeration that is none of its set.
-/

namespace QdkEc

/-- A measurement of a gadget. -/
structure ExplicitMeasurement where
  gid : ℕ
  measurementIndex : ℕ
deriving DecidableEq

/-- A check of a check model. -/
structure ExplicitCheck where
  cid : ℕ
  checkIndex : ℕ
deriving DecidableEq

/-- The remote owners that checks or errors refer to, in the order in which they are met, with the
least index that is used of each of them. -/
structure Sequencer (A : Type) where
  ids : List ℕ
  remotes : List A
  minimumIndices : List ℕ

namespace Sequencer

variable {A : Type}

/-- A sequencer that has met nobody. -/
def new : Sequencer A :=
  ⟨[], [], []⟩

/-- The remote index of an owner, with the sequencer that has met it. -/
def getOrInsert (sequencer : Sequencer A) (id index : ℕ) (remote : A) : Sequencer A × ℕ :=
  if id ∈ sequencer.ids then
    let remoteIndex := sequencer.ids.idxOf id
    ({ sequencer with
      minimumIndices := sequencer.minimumIndices.modify remoteIndex (min · index) }, remoteIndex)
  else
    (⟨sequencer.ids ++ [id], sequencer.remotes ++ [remote], sequencer.minimumIndices ++ [index]⟩,
      sequencer.ids.length)

/-- The least index that is used of an owner. -/
def bias (sequencer : Sequencer A) (remoteIndex : ℕ) : ℕ :=
  (sequencer.minimumIndices[remoteIndex]?).getD 0

end Sequencer

def Enumerates {A : Type} [DecidableEq A] (order : List A) (set : Finset A) : Prop :=
  order.Nodup ∧ order.toFinset = set

instance
    {A : Type}
    [DecidableEq A]
    (order : List A)
    (set : Finset A) :
    Decidable (Enumerates order set) :=
  inferInstanceAs (Decidable (_ ∧ _))

/-- The order of measurements: those of the gadget come first. -/
def measurementLe (a b : RemoteMeasurement) : Prop :=
  (a.remoteGadget.elim 0 (· + 1)) < b.remoteGadget.elim 0 (· + 1) ∨
    (a.remoteGadget = b.remoteGadget ∧ a.measurementIndex ≤ b.measurementIndex)

instance : DecidableRel measurementLe :=
  fun _ _ => inferInstanceAs (Decidable (_ ∨ _))

/-- Refer to a measurement. -/
def sequenceMeasurement (currentGid : ℕ) (gtypeOf : ℕ → Option ℕ)
    (sequenced : Sequencer RemoteGadget × List RemoteMeasurement)
    (measurement : ExplicitMeasurement) :
    Option (Sequencer RemoteGadget × List RemoteMeasurement) :=
  if measurement.gid = currentGid then
    some (sequenced.1, sequenced.2 ++ [⟨none, measurement.measurementIndex⟩])
  else do
    let gtype ← gtypeOf measurement.gid
    let inserted := sequenced.1.getOrInsert measurement.gid measurement.measurementIndex
      ⟨none, gtype, 0, some measurement.gid, none⟩
    some (inserted.1, sequenced.2 ++ [⟨some inserted.2, measurement.measurementIndex⟩])

/-- The check of a set of measurements, in the order of an enumeration of the set. -/
def measurementsToBinCheck (sequencer : Sequencer RemoteGadget)
    (measurements : List ExplicitMeasurement) (naturallyFlipped : Bool) (currentGid : ℕ)
    (gtypeOf : ℕ → Option ℕ) :
    Option (Sequencer RemoteGadget × Check) := do
  let sequenced ← measurements.foldlM (sequenceMeasurement currentGid gtypeOf) (sequencer, [])
  some (sequenced.1, ⟨sequenced.2.insertionSort measurementLe, naturallyFlipped⟩)

def applyMeasurementBias (sequencer : Sequencer RemoteGadget) (measurement : RemoteMeasurement) :
    Option RemoteMeasurement :=
  match measurement.remoteGadget with
  | none => some measurement
  | some remoteIndex => do
      let bias ← sequencer.minimumIndices[remoteIndex]?
      guard (bias ≤ measurement.measurementIndex)
      some { measurement with measurementIndex := measurement.measurementIndex - bias }

/-- A check relative to the biases of its remote gadgets. -/
def applyBiasToCheck (sequencer : Sequencer RemoteGadget) (check : Check) :
    Option Check := do
  let measurements ← check.measurements.mapM (applyMeasurementBias sequencer)
  some { check with measurements := measurements }

/-- The remote gadgets with their biases. -/
def finalizeGadgets (sequencer : Sequencer RemoteGadget) : List RemoteGadget :=
  sequencer.remotes.zipIdx.map fun remote =>
    { remote.1 with measurementBias := sequencer.bias remote.2 }

/-- The order of checks: those of the check model come first. -/
def remoteCheckLe (a b : RemoteCheck) : Prop :=
  (a.remoteCheckModel.elim 0 (· + 1)) < b.remoteCheckModel.elim 0 (· + 1) ∨
    (a.remoteCheckModel = b.remoteCheckModel ∧ a.checkIndex ≤ b.checkIndex)

instance : DecidableRel remoteCheckLe :=
  fun _ _ => inferInstanceAs (Decidable (_ ∨ _))

/-- Refer to a check. -/
def sequenceCheck (currentGid : ℕ) (sequenced : Sequencer RemoteCheckModel × List RemoteCheck)
    (check : ExplicitCheck) :
    Sequencer RemoteCheckModel × List RemoteCheck :=
  if check.cid = currentGid then (sequenced.1, sequenced.2 ++ [⟨none, check.checkIndex⟩])
  else
    let inserted := sequenced.1.getOrInsert check.cid check.checkIndex
      ⟨none, check.cid, 0, some check.cid, none⟩
    (inserted.1, sequenced.2 ++ [⟨some inserted.2, check.checkIndex⟩])

section Errors

variable {K : Type}

/-- The error of a set of checks, in the order of an enumeration of the set. -/
def explicitChecksToBinError (sequencer : Sequencer RemoteCheckModel) (error : JitError K)
    (checks : List ExplicitCheck) (currentGid : ℕ) :
    Sequencer RemoteCheckModel × ModelError K :=
  let sequenced := checks.foldl (sequenceCheck currentGid) (sequencer, error.base.checks)
  (sequenced.1, { error.base with checks := sequenced.2.insertionSort remoteCheckLe })

def finishedOnlyToBinError (error : JitError K) : ModelError K :=
  { error.base with
    checks := error.base.checks ++
      error.references.finishedChecks.map fun checkIndex => ⟨none, checkIndex⟩ }

def applyCheckBias (sequencer : Sequencer RemoteCheckModel) (check : RemoteCheck) :
    Option RemoteCheck := do
  let bias ← check.remoteCheckModel.elim (some 0) fun remoteIndex =>
    sequencer.minimumIndices[remoteIndex]?
  guard (bias ≤ check.checkIndex)
  some { check with checkIndex := check.checkIndex - bias }

/-- An error relative to the biases of its remote check models. -/
def applyBiasToError (sequencer : Sequencer RemoteCheckModel) (error : ModelError K) :
    Option (ModelError K) := do
  let checks ← error.checks.mapM (applyCheckBias sequencer)
  some { error with checks := checks }

end Errors

def finalizeCheckModels (sequencer : Sequencer RemoteCheckModel) : List RemoteCheckModel :=
  sequencer.remotes.zipIdx.map fun remote => { remote.1 with checkBias := sequencer.bias remote.2 }

/-- A gadget that was compiled. -/
structure JitGadgetState where
  gtype : ℕ
  outputs : List (Option Connector)
  outputChecks : List (List (Finset ExplicitMeasurement × Bool))
  inputVirtualCheckMap : InputVirtualCheckMap
  outputVirtualChecks : Option (List (Finset ExplicitCheck))

/-- What the compiler stores. -/
structure JitCompiler (K : Type) where
  types : JitTypes K
  currentGid : ℕ
  gadgets : GidMap JitGadgetState

/-- The errors of a gadget that wait for its output ports: the virtual checks of the first ports are
resolved. -/
structure ErrorModelFuture (K : Type) where
  gadgetType : JitGadgetType K
  probabilityModifier : Option (ProbabilityModifier K)
  ports : ℕ
  resolved : List (Finset ExplicitCheck)

/-- What compiling an instruction gives at once. -/
structure Compiled (K : Type) where
  gadget : GadgetRequest
  checkModelType : CheckModelType
  checkModel : CheckModel K
  future : ErrorModelFuture K

/-- Add what a measurement of a check stands for. -/
def expandMeasurement (inputChecks : List (List (Finset ExplicitMeasurement × Bool))) (gid : ℕ)
    (expanded : Finset ExplicitMeasurement × Bool) (measurement : PresentMeasurement) :
    Option (Finset ExplicitMeasurement × Bool) :=
  match measurement.inputPort with
  | none => some (symmDiff expanded.1 {⟨gid, measurement.measurementIndex⟩}, expanded.2)
  | some inputPort => do
      let portChecks ← inputChecks[inputPort]?
      let inputCheck ← portChecks[measurement.measurementIndex]?
      some (symmDiff expanded.1 inputCheck.1, expanded.2 ^^ inputCheck.2)

def expandCheckMeasurements (inputChecks : List (List (Finset ExplicitMeasurement × Bool)))
    (gid : ℕ) (check : JitCheck) :
    Option (Finset ExplicitMeasurement × Bool) :=
  check.measurements.foldlM (expandMeasurement inputChecks gid) (∅, check.naturallyFlipped)

/-- Split the expanded unfinished checks into those of the output ports. -/
def splitOutputChecks {A : Type} :
    List ℕ → List A → Option (List (List A))
  | [], [] => some []
  | [], _ :: _ => none
  | count :: counts, checks => do
      guard (count ≤ checks.length)
      let rest ← splitOutputChecks counts (checks.drop count)
      some (checks.take count :: rest)

namespace JitCompiler

variable {K : Type}

/-- A compiler with types and without gadgets. -/
def new (types : JitTypes K) : JitCompiler K where
  types := types
  currentGid := 1
  gadgets := ∅

/-- The identifier of a new gadget and the next one. -/
def assignGid (compiler : JitCompiler K) (gid : ℕ) : ℕ × ℕ :=
  if gid = 0 then (compiler.currentGid, compiler.currentGid + 1)
  else (gid, max compiler.currentGid (gid + 1))

/-- Connect an input port and take the output checks of its peer. -/
def connectInput (gid : ℕ) (inputMap : InputVirtualCheckMap)
    (connected : GidMap JitGadgetState × List (List (Finset ExplicitMeasurement × Bool)))
    (connection : Connector × ℕ) :
    Option (GidMap JitGadgetState × List (List (Finset ExplicitMeasurement × Bool))) := do
  let peer ← connected.1.lookup connection.1.gid
  guard (peer.outputs[connection.1.port]? = some none)
  let peerChecks ← peer.outputChecks[connection.1.port]?
  let entries ← inputMap[connection.2]?
  guard (entries.length = peerChecks.length)
  some (connected.1.insert connection.1.gid { peer with
      outputs := peer.outputs.set connection.1.port (some ⟨gid, connection.2⟩)
      outputChecks := peer.outputChecks.set connection.1.port [] },
    connected.2 ++ [peerChecks])

def sequenceChecks (currentGid : ℕ) (gtypeOf : ℕ → Option ℕ) :
    Sequencer RemoteGadget → List (Finset ExplicitMeasurement × Bool) →
      List (List ExplicitMeasurement) → Option (Sequencer RemoteGadget × List Check)
  | sequencer, [], [] => some (sequencer, [])
  | sequencer, expanded :: rest, order :: orders => do
      guard (Enumerates order expanded.1)
      let sequenced ← measurementsToBinCheck sequencer order expanded.2 currentGid gtypeOf
      let finished ← sequenceChecks currentGid gtypeOf sequenced.1 rest orders
      some (finished.1, sequenced.2 :: finished.2)
  | _, _, _ => none

def buildCheckModelType (gid gtype : ℕ) (gtypeOf : ℕ → Option ℕ)
    (expanded : List (Finset ExplicitMeasurement × Bool))
    (orders : List (List ExplicitMeasurement)) :
    Option CheckModelType := do
  let sequenced ← sequenceChecks gid gtypeOf .new expanded orders
  let checks ← sequenced.2.mapM (applyBiasToCheck sequenced.1)
  some ⟨gid, gtype, finalizeGadgets sequenced.1, checks⟩

/-- What refers to the input ports of a gadget type, and the types that store it. -/
def getInputVirtualCheckMap (types : JitTypes K) (gtype : ℕ) (gadgetType : JitGadgetType K) :
    Option (JitTypes K × InputVirtualCheckMap) :=
  match types.inputVirtualCheckMaps.lookup gtype with
  | some inputMap => some (types, inputMap)
  | none => do
      let inputMap ← inputVirtualCheckMap gadgetType types.portTypes
      some ({ types with
        inputVirtualCheckMaps := types.inputVirtualCheckMaps.insert gtype inputMap }, inputMap)

def bindCheckModel (gid gtype : ℕ) (probabilityModifier : Option (ProbabilityModifier K)) :
    CheckModel K where
  ctype := gid
  gid := gid
  rerouteRemoteGadgets := []
  cid := gid
  errorModelCount := none
  terminalErrorModel := some {
    etype := gtype
    cid := gid
    modifier := probabilityModifier.map fun modifier => ⟨some modifier, []⟩
    eid := gid }

/-- Compile an instruction; the enumerations are those of the finished checks. -/
def compile (compiler : JitCompiler K) (instruction : JitInstruction K)
    (orders : List (List ExplicitMeasurement)) :
    Option (JitCompiler K × Compiled K) := do
  let request ← instruction.gadget
  let assigned := compiler.assignGid request.gid
  let gid := assigned.1
  let gadgetType ← compiler.types.gadgetTypes.lookup request.gtype
  let mapped ← getInputVirtualCheckMap compiler.types request.gtype gadgetType
  let connected ← request.connectors.zipIdx.foldlM (connectInput gid mapped.2)
    (compiler.gadgets, [])
  let finished ← gadgetType.finishedChecks.mapM (expandCheckMeasurements connected.2 gid)
  let checkModelType ← buildCheckModelType gid request.gtype
    (fun peer => (connected.1.lookup peer).map JitGadgetState.gtype) finished orders
  let counts ← gadgetType.base.gadgetType.outputs.mapM fun ptype =>
    (compiler.types.portTypes.lookup ptype).map JitPortType.stabilizers
  let unfinished ← gadgetType.unfinishedChecks.mapM (expandCheckMeasurements connected.2 gid)
  let outputChecks ← splitOutputChecks counts unfinished
  some ({
      types := mapped.1
      currentGid := assigned.2
      gadgets := connected.1.insert gid {
        gtype := request.gtype
        outputs := List.replicate gadgetType.base.gadgetType.outputs.length none
        outputChecks := outputChecks
        inputVirtualCheckMap := mapped.2
        outputVirtualChecks := none } }, {
      gadget := { request with gid := gid }
      checkModelType := checkModelType
      checkModel := bindCheckModel gid request.gtype instruction.probabilityModifier
      future := ⟨gadgetType, instruction.probabilityModifier, 0, []⟩ })

/-- The checks that a virtual check stands for: those of the peer that refer to it, and what its
unfinished checks stand for.  The inner `none` waits for the peer. -/
def resolveVirtualCheck (peerGid : ℕ) (peerChecks : Option (List (Finset ExplicitCheck)))
    (references : CheckReferences) :
    Option (Option (Finset ExplicitCheck)) :=
  -- A check that mentions the virtual check twice is inserted once: only debug builds assert that it
  -- is new.
  let finished := references.finishedChecks.foldl
    (fun checks checkIndex => insert (⟨peerGid, checkIndex⟩ : ExplicitCheck) checks) ∅
  if references.unfinishedChecks = [] then some (some finished)
  else
    match peerChecks with
    | none => some none
    | some peerChecks => do
        let resolved ← references.unfinishedChecks.foldlM
          (fun checks checkIndex => (peerChecks[checkIndex]?).map (symmDiff checks)) finished
        some (some resolved)

/-- The virtual checks of an output port; the inner `none` waits for a connection or for the
peer. -/
def resolvePort (compiler : JitCompiler K) (gid port : ℕ) :
    Option (Option (List (Finset ExplicitCheck))) := do
  let gadget ← compiler.gadgets.lookup gid
  let output ← gadget.outputs[port]?
  match output with
  | none => some none
  | some connector => do
      let peer ← compiler.gadgets.lookup connector.gid
      let entries ← peer.inputVirtualCheckMap[connector.port]?
      let resolved ← entries.mapM (resolveVirtualCheck connector.gid peer.outputVirtualChecks)
      some (resolved.mapM id)

def expandErrorChecks (outputVirtualChecks : List (Finset ExplicitCheck)) (gid : ℕ)
    (references : CheckReferences) :
    Option (Finset ExplicitCheck) :=
  references.unfinishedChecks.foldlM
    (fun checks checkIndex => (outputVirtualChecks[checkIndex]?).map (symmDiff checks))
    (references.finishedChecks.foldl
      (fun checks checkIndex => symmDiff checks {(⟨gid, checkIndex⟩ : ExplicitCheck)}) ∅)

def sequenceErrors (currentGid : ℕ) (outputVirtualChecks : List (Finset ExplicitCheck)) :
    Sequencer RemoteCheckModel → List (JitError K) → List (List ExplicitCheck) →
      Option (Sequencer RemoteCheckModel × List (ModelError K))
  | sequencer, [], [] => some (sequencer, [])
  | sequencer, error :: rest, orders =>
    if error.references.unfinishedChecks = [] then do
      let finished ← sequenceErrors currentGid outputVirtualChecks sequencer rest orders
      some (finished.1, finishedOnlyToBinError error :: finished.2)
    else
      match orders with
      | [] => none
      | order :: orders => do
          let explicitChecks ← expandErrorChecks outputVirtualChecks currentGid error.references
          guard (Enumerates order explicitChecks)
          let sequenced := explicitChecksToBinError sequencer error order currentGid
          let finished ← sequenceErrors currentGid outputVirtualChecks sequenced.1 rest orders
          some (finished.1, sequenced.2 :: finished.2)
  | _, [], _ :: _ => none

/-- The error model type of a gadget whose virtual checks are resolved. -/
def buildErrorModelType (gid : ℕ) (errors : List (JitError K))
    (outputVirtualChecks : List (Finset ExplicitCheck)) (orders : List (List ExplicitCheck)) :
    Option (ErrorModelType K) := do
  let sequenced ← sequenceErrors gid outputVirtualChecks .new errors orders
  let errors ← sequenced.2.mapM (applyBiasToError sequenced.1)
  some ⟨gid, wildcard, finalizeCheckModels sequenced.1, errors⟩

def attachErrorModel (gid : ℕ) (probabilityModifier : Option (ProbabilityModifier K)) :
    ErrorModel K where
  etype := gid
  cid := gid
  modifier := probabilityModifier.map fun modifier => ⟨some modifier, []⟩
  eid := gid

def publishOutputVirtualChecks (compiler : JitCompiler K) (gid : ℕ)
    (checks : List (Finset ExplicitCheck)) :
    Option (JitCompiler K) := do
  let gadget ← compiler.gadgets.lookup gid
  some { compiler with
    gadgets := compiler.gadgets.insert gid { gadget with outputVirtualChecks := some checks } }

end JitCompiler

end QdkEc
