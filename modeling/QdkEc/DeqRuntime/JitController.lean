import QdkEc.DeqRuntime.JitRuns

/-!
# The controller

This module models the controller that compiles instructions and sends the results to a
coordinator.  A gadget is sent when its instruction is executed; a task then loads its
check model, waits for the errors, and loads the error model.  Types that were loaded are
kept in a cache, under a key that leaves out what differs between gadgets, and what
differs is sent with each instance.  `none` is a panic, or a task that has to wait.
-/

namespace QdkEc

/-- What is compared of check model types. -/
structure CheckModelTypeKey where
  gtype : ℕ
  checks : List Check
deriving DecidableEq

/-- What is compared of error model types. -/
structure ErrorModelTypeKey (K : Type) where
  ctype : ℕ
  errors : List (ModelError K)
deriving DecidableEq

def CheckModelType.key (checkModelType : CheckModelType) : CheckModelTypeKey :=
  ⟨checkModelType.gtype, checkModelType.checks⟩

def ErrorModelType.key {K : Type} (errorModelType : ErrorModelType K) : ErrorModelTypeKey K :=
  ⟨errorModelType.ctype, errorModelType.errors⟩

/-- The types that were loaded, by their keys. -/
structure TypeCache (K : Type) where
  checkModelTypes : AList fun _ : CheckModelTypeKey => ℕ
  errorModelTypes : AList fun _ : ErrorModelTypeKey K => ℕ

def TypeCache.empty (K : Type) : TypeCache K :=
  ⟨∅, ∅⟩

/-- Rewrite all remote gadgets. -/
def buildCheckModelModifier (checkModelType : CheckModelType) : List (ℕ × Option RemoteGadget) :=
  checkModelType.remoteGadgets.zipIdx.map fun remote => (remote.2, some remote.1)

/-- Rewrite all remote check models, and keep the changes of probabilities. -/
def buildErrorModelModifier {K : Type} (errorModelType : ErrorModelType K)
    (errorModel : ErrorModel K) :
    Option (ErrorModelModifier K) :=
  let reroutes := errorModelType.remoteCheckModels.zipIdx.map fun remote =>
    (remote.2, some remote.1)
  let probabilityModifier := errorModel.modifier.bind ErrorModelModifier.probabilityModifier
  if reroutes = [] ∧ probabilityModifier.isNone then none
  else some ⟨probabilityModifier, reroutes⟩

/-- How a controller talks to a coordinator. -/
structure CoordinatorClient (K S : Type) where
  loadLibrary : S → Library K → S × Except Status Unit
  execute : S → CoordinatorInstruction K → Option (S × Except Status ℕ)
  reset : S → Bool → S × Except Status Unit

/-- What a task does next: it loads a check model, waits for errors or loads an error model. -/
inductive TaskStage (K : Type)
  | checkModel (checkModelType : CheckModelType) (checkModel : CheckModel K)
      (future : ErrorModelFuture K)
  | resolving (future : ErrorModelFuture K)
  | errorModel (errorModelType : ErrorModelType K) (errorModel : ErrorModel K)
  | done

/-- The task of a gadget. -/
structure ControllerTask (K : Type) where
  gid : ℕ
  stage : TaskStage K

/-- What the controller stores. -/
structure JitController (K S : Type) where
  cacheEnabled : Bool
  library : JitLibrary K
  compiler : JitCompiler K
  coordinator : Option S
  typeCache : TypeCache K
  nextCtype : ℕ
  nextEtype : ℕ
  terminalEtypes : GidMap ℕ
  undecodedGids : Finset ℕ
  tasks : List (ControllerTask K)

namespace JitController

variable {K S : Type} (client : CoordinatorClient K S) (controller : JitController K S)

/-- A controller without a coordinator. -/
def new (library : JitLibrary K) (cacheEnabled : Bool) : JitController K S where
  cacheEnabled := cacheEnabled
  library := library
  compiler := .new (.empty K)
  coordinator := none
  typeCache := .empty K
  nextCtype := 1
  nextEtype := 1
  terminalEtypes := ∅
  undecodedGids := ∅
  tasks := []

def registerTerminalType (registered : JitController K S × List (ErrorModelType K))
    (gadgetType : CoordinatorGadgetType) :
    Option (JitController K S × List (ErrorModelType K)) := do
  let terminalType ← registered.1.compiler.types.terminalErrorModelTypes.lookup gadgetType.gtype
  let etype := registered.1.nextEtype
  some ({ registered.1 with
      nextEtype := etype + 1
      terminalEtypes := registered.1.terminalEtypes.insert gadgetType.gtype etype },
    registered.2 ++ [{ terminalType with etype := etype }])

def registerTerminalTypes (gadgetTypes : List CoordinatorGadgetType) :
    Option (JitController K S × List (ErrorModelType K)) :=
  gadgetTypes.foldlM registerTerminalType (controller, [])

def loadCompiler (library : JitLibrary K) : Option (JitController K S) := do
  let types ← controller.compiler.types.loadLibrary library
  some { controller with compiler := { controller.compiler with types := types } }

def sendLibrary (state : S) (library : JitLibrary K) :
    Option (JitController K S × Except Status Unit) := do
  let gadgetTypes := library.gadgetTypes.map JitGadgetType.base
  let registered ← controller.registerTerminalTypes gadgetTypes
  let loaded := client.loadLibrary state
    ⟨library.portTypes.map JitPortType.base, gadgetTypes, [], registered.2⟩
  some ({ registered.1 with coordinator := some loaded.1 }, loaded.2)

def loadLibrary (library : JitLibrary K) :
    Option (JitController K S × Except Status Unit) := do
  let controller ← controller.loadCompiler library
  if library.portTypes.isEmpty && library.gadgetTypes.isEmpty then some (controller, .ok ())
  else
    match controller.coordinator with
    | none =>
      some (controller, .error (.coordinator (.failedPrecondition "coordinator not connected")))
    | some state => controller.sendLibrary client state library

/-- Connect a coordinator and load the initial library; a library that is rejected is a panic. -/
def start (state : S) : Option (JitController K S) := do
  let loaded ← { controller with coordinator := some state }.loadLibrary client controller.library
  guard (loaded.2.toOption.isSome)
  some loaded.1

/-- The number of a check model type: the cached one, or a new one that is loaded. -/
def getOrLoadCtype (state : S) (checkModelType : CheckModelType) :
    Option (JitController K S × S × ℕ) :=
  match if controller.cacheEnabled then
      controller.typeCache.checkModelTypes.lookup checkModelType.key else none with
  | some cached => some (controller, state, cached)
  | none => do
      let ctype := controller.nextCtype
      let loaded := client.loadLibrary state ⟨[], [], [{ checkModelType with ctype := ctype }], []⟩
      guard loaded.2.toOption.isSome
      some ({ controller with
          nextCtype := ctype + 1
          typeCache := if controller.cacheEnabled then
              { controller.typeCache with
                checkModelTypes := controller.typeCache.checkModelTypes.insert checkModelType.key
                  ctype }
            else controller.typeCache }, loaded.1, ctype)

/-- The number of an error model type: the cached one, or a new one that is loaded. -/
def getOrLoadEtype [DecidableEq K] (state : S) (errorModelType : ErrorModelType K) :
    Option (JitController K S × S × ℕ) :=
  match if controller.cacheEnabled then
      controller.typeCache.errorModelTypes.lookup errorModelType.key else none with
  | some cached => some (controller, state, cached)
  | none => do
      let etype := controller.nextEtype
      let loaded := client.loadLibrary state ⟨[], [], [], [{ errorModelType with etype := etype }]⟩
      guard loaded.2.toOption.isSome
      some ({ controller with
          nextEtype := etype + 1
          typeCache := if controller.cacheEnabled then
              { controller.typeCache with
                errorModelTypes := controller.typeCache.errorModelTypes.insert errorModelType.key
                  etype }
            else controller.typeCache }, loaded.1, etype)

/-- The terminal model of a check model has the type of the terminal models of its gadget type. -/
def withTerminalEtype (checkModel : CheckModel K) (etype : ℕ) : CheckModel K :=
  { checkModel with
    terminalErrorModel := checkModel.terminalErrorModel.map fun terminal =>
      { terminal with etype := etype } }

/-- Execute an instruction: its gadget is sent, and its task starts. -/
def execute (instruction : JitInstruction K) (orders : List (List ExplicitMeasurement)) :
    Option (JitController K S × ℕ) := do
  let compiled ← controller.compiler.compile instruction orders
  let gid := compiled.2.gadget.gid
  let etype ← controller.terminalEtypes.lookup compiled.2.gadget.gtype
  let state ← controller.coordinator
  let answered ← client.execute state (.gadget compiled.2.gadget)
  guard (answered.2.toOption = some gid)
  some ({ controller with
      compiler := compiled.1
      coordinator := some answered.1
      undecodedGids := insert gid controller.undecodedGids
      tasks := controller.tasks ++ [⟨gid, .checkModel compiled.2.checkModelType
        (withTerminalEtype compiled.2.checkModel etype) compiled.2.future⟩] }, gid)

/-- A task reaches its next stage. -/
def setStage (task : ℕ) (gid : ℕ) (stage : TaskStage K) : JitController K S :=
  { controller with tasks := controller.tasks.set task ⟨gid, stage⟩ }

def bindCheckModel (task gid : ℕ) (checkModelType : CheckModelType) (checkModel : CheckModel K)
    (future : ErrorModelFuture K) :
    Option (JitController K S) := do
  let state ← controller.coordinator
  let (controller, state, ctype) ← controller.getOrLoadCtype client state checkModelType
  let answered ← client.execute state (.checkModel { checkModel with
    ctype := ctype
    rerouteRemoteGadgets := buildCheckModelModifier checkModelType })
  guard answered.2.toOption.isSome
  some ({ controller with coordinator := some answered.1 }.setStage task gid (.resolving future))

/-- Resolve the errors of a gadget by one port, or build them. -/
def resolveErrors (task gid : ℕ) (future : ErrorModelFuture K)
    (orders : List (List ExplicitCheck)) :
    Option (JitController K S) :=
  if future.ports < future.gadgetType.base.gadgetType.outputs.length then do
    let checks ← (← controller.compiler.resolvePort gid future.ports)
    some (controller.setStage task gid (.resolving { future with
      ports := future.ports + 1
      resolved := future.resolved ++ checks }))
  else do
    guard (future.resolved.length = future.gadgetType.unfinishedChecks.length)
    let compiler ← controller.compiler.publishOutputVirtualChecks gid future.resolved
    let errorModelType ← JitCompiler.buildErrorModelType gid future.gadgetType.errors
      future.resolved orders
    some ({ controller with compiler := compiler }.setStage task gid
      (.errorModel errorModelType
        (JitCompiler.attachErrorModel gid future.probabilityModifier)))

def attachErrorModel [DecidableEq K] (task gid : ℕ) (errorModelType : ErrorModelType K)
    (errorModel : ErrorModel K) :
    Option (JitController K S) := do
  let state ← controller.coordinator
  let (controller, state, etype) ← controller.getOrLoadEtype client state errorModelType
  let answered ← client.execute state (.errorModel {
    etype := etype
    cid := gid
    modifier := buildErrorModelModifier errorModelType errorModel
    eid := errorModel.eid })
  some ({ controller with coordinator := some answered.1 }.setStage task gid .done)

/-- A task does what comes next. -/
def advance [DecidableEq K] (task : ℕ) (orders : List (List ExplicitCheck)) :
    Option (JitController K S) := do
  let current ← controller.tasks[task]?
  match current.stage with
  | .checkModel checkModelType checkModel future =>
    controller.bindCheckModel client task current.gid checkModelType checkModel future
  | .resolving future => controller.resolveErrors task current.gid future orders
  | .errorModel errorModelType errorModel =>
    controller.attachErrorModel client task current.gid errorModelType errorModel
  | .done => none

/-- What a reset does to the compiler, the cache and the tasks, which are all cancelled. -/
def clear (resetLibrary : Bool) : Option (JitController K S) :=
  let idle := { controller with
    undecodedGids := ∅
    tasks := [] }
  if resetLibrary then
    { idle with
      compiler := .new (.empty K)
      terminalEtypes := ∅
      typeCache := .empty K }.loadCompiler controller.library
  else some { idle with compiler := .new controller.compiler.types }

/-- Reset the controller and the coordinator; a library that is rejected is a panic. -/
def reset (resetLibrary : Bool) : Option (JitController K S × Except Status Unit) := do
  let cleared ← controller.clear resetLibrary
  match cleared.coordinator with
  | none => some (cleared, .ok ())
  | some state =>
    let answered := client.reset state resetLibrary
    let controller := { cleared with coordinator := some answered.1 }
    match answered.2 with
    | .error status => some (controller, .error status)
    | .ok () =>
      if resetLibrary then do
        let sent ← { controller with
          nextCtype := 1
          nextEtype := 1 }.sendLibrary client answered.1 controller.library
        guard sent.2.toOption.isSome
        some sent
      else some (controller, .ok ())

end JitController

/-- What happens next at a controller. -/
inductive ControllerEvent (K : Type)
  | loadLibrary (library : JitLibrary K)
  | execute (instruction : JitInstruction K) (orders : List (List ExplicitMeasurement))
  | advance (task : ℕ) (orders : List (List ExplicitCheck))
  | reset (resetLibrary : Bool)

namespace JitController

variable {K S : Type} [DecidableEq K] (client : CoordinatorClient K S)

/-- What happens at an event. -/
def step (controller : JitController K S) :
    ControllerEvent K → Option (JitController K S)
  | .loadLibrary library => (controller.loadLibrary client library).map Prod.fst
  | .execute instruction orders => (controller.execute client instruction orders).map Prod.fst
  | .advance task orders => controller.advance client task orders
  | .reset resetLibrary => (controller.reset client resetLibrary).map Prod.fst

/-- What happens at events after a controller was connected. -/
def run (library : JitLibrary K) (cacheEnabled : Bool) (state : S)
    (events : List (ControllerEvent K)) :
    Option (JitController K S) := do
  let controller ← (new library cacheEnabled).start client state
  events.foldlM (step client) controller

end JitController

end QdkEc
