import QdkEc.DeqRuntime.Requests

/-!
# Libraries of the compiler

This module models the types that the compiler loads.  A check of a gadget type refers to
measurements of its gadget and to virtual checks of the gadgets at its input ports; an
error refers to the finished checks of its gadget and to its unfinished ones, which are
the virtual checks of its output ports.  `none` is a panic.
-/

namespace QdkEc

/-- The type of a port, with the number of its stabilizers. -/
structure JitPortType where
  base : PortType
  stabilizers : ℕ

/-- A measurement of a gadget, or a virtual check of the gadget at an input port. -/
structure PresentMeasurement where
  inputPort : Option ℕ
  measurementIndex : ℕ
deriving DecidableEq

/-- A check of a gadget type. -/
structure JitCheck where
  naturallyFlipped : Bool
  measurements : List PresentMeasurement

/-- Finished and unfinished checks of a gadget. -/
structure CheckReferences where
  finishedChecks : List ℕ
  unfinishedChecks : List ℕ
deriving DecidableEq

/-- An error of a gadget type. -/
structure JitError (K : Type) where
  base : ModelError K
  references : CheckReferences

/-- A gadget type with the checks and the errors of its gadgets. -/
structure JitGadgetType (K : Type) where
  base : CoordinatorGadgetType
  finishedChecks : List JitCheck
  unfinishedChecks : List JitCheck
  errors : List (JitError K)

/-- A library of the compiler. -/
structure JitLibrary (K : Type) where
  portTypes : List JitPortType
  gadgetTypes : List (JitGadgetType K)

/-- An instruction of the compiler. -/
structure JitInstruction (K : Type) where
  gadget : Option GadgetRequest
  probabilityModifier : Option (ProbabilityModifier K)

abbrev InputVirtualCheckMap :=
  List (List CheckReferences)

/-- The types that the compiler has loaded. -/
structure JitTypes (K : Type) where
  portTypes : GidMap JitPortType
  gadgetTypes : GidMap (JitGadgetType K)
  terminalErrorModelTypes : GidMap (ErrorModelType K)
  inputVirtualCheckMaps : GidMap InputVirtualCheckMap

section Mentions

variable {K : Type}

/-- Note that a check refers to a virtual check of an input port. -/
def recordMention (push : CheckReferences → CheckReferences) (inputMap : InputVirtualCheckMap)
    (measurement : PresentMeasurement) :
    Option InputVirtualCheckMap :=
  match measurement.inputPort with
  | none => some inputMap
  | some port => do
      let entries ← inputMap[port]?
      let entry ← entries[measurement.measurementIndex]?
      some (inputMap.set port (entries.set measurement.measurementIndex (push entry)))

/-- Note what a finished check refers to. -/
def recordFinished (inputMap : InputVirtualCheckMap) (check : JitCheck × ℕ) :
    Option InputVirtualCheckMap :=
  check.1.measurements.foldlM (recordMention fun entry =>
    { entry with finishedChecks := entry.finishedChecks ++ [check.2] }) inputMap

/-- Note what an unfinished check refers to. -/
def recordUnfinished (inputMap : InputVirtualCheckMap) (check : JitCheck × ℕ) :
    Option InputVirtualCheckMap :=
  check.1.measurements.foldlM (recordMention fun entry =>
    { entry with unfinishedChecks := entry.unfinishedChecks ++ [check.2] }) inputMap

def inputVirtualCheckMap (gadgetType : JitGadgetType K) (portTypes : GidMap JitPortType) :
    Option InputVirtualCheckMap := do
  let inputMap ← gadgetType.base.gadgetType.inputs.mapM fun ptype =>
    (portTypes.lookup ptype).map fun portType =>
      List.replicate portType.stabilizers (⟨[], []⟩ : CheckReferences)
  let inputMap ← gadgetType.finishedChecks.zipIdx.foldlM recordFinished inputMap
  gadgetType.unfinishedChecks.zipIdx.foldlM recordUnfinished inputMap

end Mentions

section Load

variable {K : Type}

/-- An error of a terminal model: its unfinished checks are one check that is not there yet. -/
def terminalError (error : JitError K) : ModelError K :=
  { error.base with
    checks := error.base.checks ++
      error.references.finishedChecks.map (fun checkIndex => ⟨none, checkIndex⟩) ++
        if error.references.unfinishedChecks = [] then [] else [⟨some 0, 0⟩] }

def terminalErrorModelType (gadgetType : JitGadgetType K) : ErrorModelType K where
  etype := gadgetType.base.gtype
  ctype := 0
  remoteCheckModels :=
    if gadgetType.errors.all fun error => error.references.unfinishedChecks = [] then []
    else [⟨none, 0, 0, some futureCheckCid, none⟩]
  errors := gadgetType.errors.map terminalError

namespace JitTypes

def loadPortType (types : JitTypes K) (portType : JitPortType) :
    Option (JitTypes K) := do
  guard (portType.base.ptype ∉ types.portTypes)
  some { types with portTypes := types.portTypes.insert portType.base.ptype portType }

/-- Store what refers to the input ports of a gadget type, if their types are there. -/
def storeInputVirtualChecks (types : JitTypes K) (gadgetType : JitGadgetType K) :
    Option (GidMap InputVirtualCheckMap) :=
  if gadgetType.base.gadgetType.inputs.all fun ptype => ptype ∈ types.portTypes then
    (inputVirtualCheckMap gadgetType types.portTypes).map
      (types.inputVirtualCheckMaps.insert gadgetType.base.gtype)
  else some types.inputVirtualCheckMaps

def loadGadgetType (types : JitTypes K) (gadgetType : JitGadgetType K) :
    Option (JitTypes K) := do
  let gtype := gadgetType.base.gtype
  guard (gtype ∉ types.gadgetTypes)
  let maps ← types.storeInputVirtualChecks gadgetType
  some { types with
    inputVirtualCheckMaps := maps
    terminalErrorModelTypes :=
      types.terminalErrorModelTypes.insert gtype (terminalErrorModelType gadgetType)
    gadgetTypes := types.gadgetTypes.insert gtype gadgetType }

/-- No types. -/
def empty (K : Type) : JitTypes K :=
  ⟨∅, ∅, ∅, ∅⟩

def loadLibrary (types : JitTypes K) (library : JitLibrary K) :
    Option (JitTypes K) := do
  let types ← library.portTypes.foldlM loadPortType types
  library.gadgetTypes.foldlM loadGadgetType types

end JitTypes

end Load

end QdkEc
