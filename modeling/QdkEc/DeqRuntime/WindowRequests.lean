import QdkEc.DeqRuntime.Requests

/-!
# Requests to the window coordinator

This module models how the window coordinator executes gadgets, check models and error
models.  An error model refers to the check models of other gadgets through ports; a
referral that cannot be resolved yet is parked where it is blocked, and it is taken up
again when the port is connected or the check model arrives.  `none` is a panic.
-/

namespace QdkEc

/-- A gadget that was executed. -/
structure WindowGadget (K : Type) where
  gtype : ℕ
  connectors : List Connector
  outcomes : Option BitVector
  probabilityModifiers : List (ℕ × ProbabilityModifier K)
  bindingCid : Option ℕ
  outputs : List (Option Connector)
  isFreeHop : Bool
  lossMask : Option BitVector
  decoderSeed : Option ℕ

/-- A check model that was executed. -/
structure WindowCheckModel (K : Type) where
  checkModel : CheckModel K
  attachingEids : List ℕ
  errorModelReady : Bool
  modifiedRemoteGadgets : List (Option RemoteGadget)
  referringEids : List ℕ

/-- An error model that was executed. -/
structure WindowErrorModel (K : Type) where
  errorModel : ErrorModel K
  modifiedRemoteCheckModels : List (Option RemoteCheckModel)

/-- A referral of an error model that waits for a port. -/
structure PendingPortReferral where
  eid : ℕ
  ri : ℕ
  ownerGid : ℕ
  modifiedRemote : List (Option RemoteCheckModel)

/-- What the window coordinator stores. -/
structure WindowCoordinator (K : Type) where
  types : LoadedTypes K
  gadgets : GidMap (WindowGadget K)
  checkModels : GidMap (WindowCheckModel K)
  errorModels : GidMap (WindowErrorModel K)
  nextGid : ℕ
  nextCid : ℕ
  nextEid : ℕ
  pendingReferringByGid : GidMap (List ℕ)
  pendingReferringByCid : GidMap (List ℕ)
  pendingReferringByPort : AList fun _ : ℕ × ℕ => List PendingPortReferral
  pauliFrameTracker : PauliFrameTracker

namespace WindowCoordinator

/-- A coordinator without types and instances. -/
def new (K : Type) : WindowCoordinator K where
  types := ⟨∅, ∅, ∅, ∅⟩
  gadgets := ∅
  checkModels := ∅
  errorModels := ∅
  nextGid := 1
  nextCid := 1
  nextEid := 1
  pendingReferringByGid := ∅
  pendingReferringByCid := ∅
  pendingReferringByPort := ∅
  pauliFrameTracker := .new

variable {K : Type}

/-- The gadget of a remote check model that is not found. -/
def unresolvedGid : ℕ :=
  2 ^ 64 - 1

/-- The gadget at a port of another gadget. -/
def targetGid (gadgets : GidMap (WindowGadget K)) (remote : RemoteCheckModel) (previous : ℕ) :
    Option ℕ :=
  match gadgets.lookup previous with
  | none => some unresolvedGid
  | some gadget => do
      match ← remote.port with
      | .output port => do
          let output ← gadget.outputs[port]?
          some (output.elim unresolvedGid Connector.gid)
      | .input port => do
          let connector ← gadget.connectors[port]?
          some connector.gid

def resolveRemoteCheckModelGid (remoteCheckModels : List (Option RemoteCheckModel)) (ownerGid : ℕ)
    (gadgets : GidMap (WindowGadget K)) :
    ℕ → List (Option ℕ) → ℕ → Option (List (Option ℕ))
  | 0, _, _ => none
  | fuel + 1, resolved, ri => do
      let known ← resolved[ri]?
      let remote ← remoteCheckModels[ri]?
      match known, remote with
      | none, some remote =>
        if remote.absoluteCid.isSome then some (resolved.set ri (some unresolvedGid))
        else
          match remote.previousRemoteCheckModel with
          | none => do
              let target ← targetGid gadgets remote ownerGid
              some (resolved.set ri (some target))
          | some previous => do
              let resolved ← resolveRemoteCheckModelGid remoteCheckModels ownerGid gadgets fuel
                resolved previous
              let previousGid ← resolved[previous]?
              let target ← (previousGid.filter (· ≠ unresolvedGid)).elim (some unresolvedGid)
                (targetGid gadgets remote)
              some (resolved.set ri (some target))
      | _, _ => some resolved

/-- Resolve the gadgets of all remote check models. -/
def resolveAll (remoteCheckModels : List (Option RemoteCheckModel)) (ownerGid : ℕ)
    (gadgets : GidMap (WindowGadget K)) :
    Option (List (Option ℕ)) :=
  (List.range remoteCheckModels.length).foldlM
    (resolveRemoteCheckModelGid remoteCheckModels ownerGid gadgets (remoteCheckModels.length + 1))
    (List.replicate remoteCheckModels.length none)

/-- The output port of a gadget if it is not connected. -/
def unconnectedPort (gadgets : GidMap (WindowGadget K)) (remote : RemoteCheckModel) (previous : ℕ) :
    Option (Option (ℕ × ℕ)) :=
  match gadgets.lookup previous, remote.port with
  | some gadget, some (.output port) => do
      let output ← gadget.outputs[port]?
      some (if output.isNone then some (previous, port) else none)
  | _, _ => some none

/-- The port that keeps a remote check model from being resolved, if a port does. -/
def findBlockingPort (resolved : List (Option ℕ))
    (remoteCheckModels : List (Option RemoteCheckModel)) (ownerGid : ℕ)
    (gadgets : GidMap (WindowGadget K)) :
    ℕ → ℕ → Option (Option (ℕ × ℕ))
  | 0, _ => none
  | fuel + 1, ri => do
      match ← remoteCheckModels[ri]? with
      | none => some none
      | some remote =>
        if remote.absoluteCid.isSome then some none
        else
          match remote.previousRemoteCheckModel with
          | none => unconnectedPort gadgets remote ownerGid
          | some previous => do
              let previousGid ← resolved[previous]?
              if previousGid = some unresolvedGid then
                findBlockingPort resolved remoteCheckModels ownerGid gadgets fuel previous
              else previousGid.elim (some none) (unconnectedPort gadgets remote)

/-- The gadget of a check model; zero is the gadget of an unknown one. -/
def ownerGid (coordinator : WindowCoordinator K) (cid : ℕ) : ℕ :=
  (coordinator.checkModels.lookup cid).elim 0 fun checkModel => checkModel.checkModel.gid

/-- Note that an error model refers to a check model that is there. -/
def refer (coordinator : WindowCoordinator K) (cid eid : ℕ) : WindowCoordinator K :=
  (coordinator.checkModels.lookup cid).elim coordinator fun checkModel =>
    if eid ∈ checkModel.referringEids then coordinator
    else
      { coordinator with
        checkModels := coordinator.checkModels.insert cid
          { checkModel with referringEids := checkModel.referringEids ++ [eid] } }

def parkAtPort (coordinator : WindowCoordinator K) (blocker : ℕ × ℕ)
    (referral : PendingPortReferral) :
    WindowCoordinator K :=
  { coordinator with
    pendingReferringByPort := coordinator.pendingReferringByPort.insert blocker
      ((coordinator.pendingReferringByPort.lookup blocker).getD [] ++ [referral]) }

/-- Note a referral to a gadget, or park it: at the port that blocks it, or at its gadget. -/
def registerReferral (coordinator : WindowCoordinator K) (referral : PendingPortReferral)
    (resolved : List (Option ℕ)) (target : ℕ) :
    Option (WindowCoordinator K) :=
  if target = referral.ownerGid then some coordinator
  else if target = unresolvedGid then do
    let blocker ← findBlockingPort resolved referral.modifiedRemote referral.ownerGid
      coordinator.gadgets (referral.modifiedRemote.length + 1) referral.ri
    some (blocker.elim coordinator fun blocker => coordinator.parkAtPort blocker referral)
  else
    match coordinator.gadgets.lookup target with
    | none => some coordinator
    | some gadget =>
      some (gadget.bindingCid.elim
        { coordinator with
          pendingReferringByGid := coordinator.pendingReferringByGid.insert target
            ((coordinator.pendingReferringByGid.lookup target).getD [] ++ [referral.eid]) }
        fun cid => coordinator.refer cid referral.eid)

/-- Connect an output port to an input port of a new gadget. -/
def connectOutput (gid : ℕ) (gadgets : GidMap (WindowGadget K)) (connection : Connector × ℕ) :
    Option (GidMap (WindowGadget K)) := do
  let peer ← gadgets.lookup connection.1.gid
  guard (peer.outputs[connection.1.port]? = some none)
  some (gadgets.insert connection.1.gid { peer with
    outputs := peer.outputs.set connection.1.port (some ⟨gid, connection.2⟩) })

/-- Take up a parked referral. -/
def resumeReferral (coordinator : WindowCoordinator K) (referral : PendingPortReferral) :
    Option (WindowCoordinator K) := do
  let resolved ← resolveAll referral.modifiedRemote referral.ownerGid coordinator.gadgets
  let target ← resolved[referral.ri]?
  coordinator.registerReferral referral resolved (target.getD unresolvedGid)

/-- Take up the referrals that are parked at a port. -/
def drainPort (coordinator : WindowCoordinator K) (connector : Connector) :
    Option (WindowCoordinator K) :=
  let port := (connector.gid, connector.port)
  ((coordinator.pendingReferringByPort.lookup port).getD []).foldlM resumeReferral
    { coordinator with
      pendingReferringByPort := coordinator.pendingReferringByPort.erase port }

/-- The number of observables of a port type. -/
def observablesOf (coordinator : WindowCoordinator K) (ptype : ℕ) : Option ℕ :=
  (coordinator.types.portTypes.lookup ptype).map PortType.observables

/-- Store a gadget and connect it. -/
def addGadget (coordinator : WindowCoordinator K) (request : GadgetRequest)
    (gadgetType : CoordinatorGadgetType) (gid : ℕ) :
    Option (WindowCoordinator K) := do
  guard (request.connectors.length = gadgetType.gadgetType.inputs.length)
  let connected ← request.connectors.zipIdx.foldlM (connectOutput gid) coordinator.gadgets
  let drained ← request.connectors.foldlM drainPort { coordinator with
    gadgets := connected.insert gid {
      gtype := request.gtype
      connectors := request.connectors
      outcomes := none
      probabilityModifiers := []
      bindingCid := none
      outputs := List.replicate gadgetType.gadgetType.outputs.length none
      isFreeHop := gadgetType.isFreeHop.getD (gadgetType.gadgetType.measurementCount == 0)
      lossMask := none
      decoderSeed := none } }
  let tracker ← coordinator.pauliFrameTracker.addGadget gid gadgetType.gadgetType request.modifier
    coordinator.observablesOf request.connectors
  some { drained with pauliFrameTracker := tracker }

def executeGadget (coordinator : WindowCoordinator K) (request : GadgetRequest) :
    Option (WindowCoordinator K × Except Status ℕ) :=
  answer coordinator (.ok ())
    (fun _ => (assignId coordinator.gadgets coordinator.nextGid request.gid).map fun assigned =>
      (assigned.1, { coordinator with nextGid := assigned.2 }))
    (fun _ _ => found (coordinator.types.gadgetTypes.lookup request.gtype)
      (.notFound s!"gtype={request.gtype}"))
    (fun _ gadgetType gid coordinator => coordinator.addGadget request gadgetType gid)

section Probabilities

variable [Zero K] [One K] [LinearOrder K] [ToString K]

def isFutureCheckModel (remote : RemoteCheckModel) : Bool :=
  remote.absoluteCid == some futureCheckCid && remote.previousRemoteCheckModel.isNone &&
    remote.port.isNone && remote.checkBias == 0

/-- A check of a terminal model is local or reserved. -/
def isTerminalCheck (remoteCount checkCount : ℕ) (check : RemoteCheck) : Bool :=
  check.remoteCheckModel.elim (decide (check.checkIndex < checkCount)) fun index =>
    decide (index < remoteCount) && check.checkIndex == 0

/-- Check the terminal model of a check model. -/
def validateTerminal (coordinator : WindowCoordinator K) (checkModel : CheckModel K)
    (checkModelType : CheckModelType) (terminal : ErrorModel K) :
    Except Status Unit := do
  required (checkModel.errorModelCount.getD 1 = 1)
    (.invalidArgument "terminal fallback requires exactly one full error model")
  let modelType ← found (coordinator.types.errorModelTypes.lookup terminal.etype)
    (.notFound s!"terminal etype={terminal.etype}")
  required (terminal.eid ≠ 0 ∧
      (modelType.ctype = wildcard ∨ modelType.ctype = checkModel.ctype) ∧
      modelType.remoteCheckModels.all isFutureCheckModel ∧
      (modelType.errors.flatMap ModelError.checks).all
        (isTerminalCheck modelType.remoteCheckModels.length checkModelType.checks.length))
    (.invalidArgument ("terminal model requires a nonzero eid, compatible ctype, and valid " ++
      "local or reserved future checks"))
  terminal.modifier.elim (.ok ()) fun modifier => do
    required (modifier.rerouteRemoteCheckModels = [])
      (.invalidArgument "terminal model cannot reroute checks")
    modifier.probabilityModifier.elim (.ok ()) fun probabilities =>
      validated (validateProbabilityModifier probabilities modelType.errors.length)

def checkCheckModel (coordinator : WindowCoordinator K) (checkModel : CheckModel K) :
    Except Status (CheckModelType × List (Option RemoteGadget)) := do
  let checkModelType ← found (coordinator.types.checkModelTypes.lookup checkModel.ctype)
    (.notFound s!"ctype={checkModel.ctype}")
  checkModel.terminalErrorModel.elim (.ok ())
    (coordinator.validateTerminal checkModel checkModelType)
  let modifiedRemote ← validated
    (applyCheckModelReroutes checkModelType.remoteGadgets checkModel.rerouteRemoteGadgets)
  .ok (checkModelType, modifiedRemote)

def acceptCheckModel (coordinator : WindowCoordinator K) (checkModel : CheckModel K) (cid : ℕ) :
    Except Status (WindowGadget K) := do
  required (cid ≠ futureCheckCid)
    (.invalidArgument "check model id is reserved for future checks")
  required (∀ terminal ∈ checkModel.terminalErrorModel, terminal.cid = 0 ∨ terminal.cid = cid)
    (.invalidArgument "terminal model must belong to its containing check model")
  found (coordinator.gadgets.lookup checkModel.gid)
    (.invalidArgument s!"cid={cid} binding to unknown gid={checkModel.gid}")

def addCheckModel (coordinator : WindowCoordinator K) (checkModel : CheckModel K)
    (checkModelType : CheckModelType) (modifiedRemote : List (Option RemoteGadget))
    (gadget : WindowGadget K) (cid : ℕ) :
    Option (WindowCoordinator K) := do
  guard (checkModelType.gtype = wildcard ∨ checkModelType.gtype = gadget.gtype)
  guard (gadget.bindingCid = none)
  let deferred := (coordinator.pendingReferringByGid.lookup checkModel.gid).getD [] ++
    (coordinator.pendingReferringByCid.lookup cid).getD []
  some { coordinator with
    gadgets := coordinator.gadgets.insert checkModel.gid { gadget with bindingCid := some cid }
    pendingReferringByGid := coordinator.pendingReferringByGid.erase checkModel.gid
    pendingReferringByCid := coordinator.pendingReferringByCid.erase cid
    checkModels := coordinator.checkModels.insert cid {
      checkModel := { checkModel with
        cid := cid
        terminalErrorModel := checkModel.terminalErrorModel.map fun terminal =>
          { terminal with cid := cid } }
      attachingEids := []
      errorModelReady := checkModel.errorModelCount == some 0
      modifiedRemoteGadgets := modifiedRemote
      referringEids := deferred.reverse.dedup.reverse } }

def executeCheckModel (coordinator : WindowCoordinator K) (checkModel : CheckModel K) :
    Option (WindowCoordinator K × Except Status ℕ) :=
  answer coordinator (coordinator.checkCheckModel checkModel)
    (fun _ => (assignId coordinator.checkModels coordinator.nextCid checkModel.cid).map
      fun assigned => (assigned.1, { coordinator with nextCid := assigned.2 }))
    (fun _ cid => coordinator.acceptCheckModel checkModel cid)
    (fun checked gadget cid coordinator =>
      coordinator.addCheckModel checkModel checked.1 checked.2 gadget cid)

def acceptErrorModel (coordinator : WindowCoordinator K) (errorModel : ErrorModel K) (eid : ℕ) :
    Except Status (WindowCheckModel K) := do
  let checkModel ← found (coordinator.checkModels.lookup errorModel.cid)
    (.invalidArgument s!"eid={eid} attaching to unknown cid={errorModel.cid}")
  required (eid ∉ coordinator.errorModels) (.alreadyExists s!"eid={eid}")
  required (checkModel.attachingEids.length < checkModel.checkModel.errorModelCount.getD 1)
    (.failedPrecondition "all declared error models are already attached")
  .ok checkModel

/-- Note the referral of an error model to one of its remote check models. -/
def registerRemote (errorModel : ErrorModel K) (eid ownerGid : ℕ)
    (modifiedRemote : List (Option RemoteCheckModel)) (resolved : List (Option ℕ))
    (coordinator : WindowCoordinator K) (ri : ℕ) :
    Option (WindowCoordinator K) := do
  match ← modifiedRemote[ri]? with
  | none => some coordinator
  | some remote =>
    match remote.absoluteCid with
    | some target =>
      if target = errorModel.cid ∨ target = futureCheckCid then some coordinator
      else if target ∈ coordinator.checkModels then some (coordinator.refer target eid)
      else
        let waiting := (coordinator.pendingReferringByCid.lookup target).getD []
        some { coordinator with
          pendingReferringByCid := coordinator.pendingReferringByCid.insert target
            (if eid ∈ waiting then waiting else waiting ++ [eid]) }
    | none => do
        let target ← resolved[ri]?
        target.elim (some coordinator)
          (coordinator.registerReferral ⟨eid, ri, ownerGid, modifiedRemote⟩ resolved)

/-- Store an error model and its referrals. -/
def addErrorModel (coordinator : WindowCoordinator K) (errorModel : ErrorModel K)
    (errorModelType : ErrorModelType K) (modifiedRemote : List (Option RemoteCheckModel))
    (checkModel : WindowCheckModel K) (eid : ℕ) :
    Option (WindowCoordinator K) := do
  let ownerGid := checkModel.checkModel.gid
  let resolved ← resolveAll modifiedRemote ownerGid coordinator.gadgets
  guard (errorModelType.ctype = wildcard ∨ errorModelType.ctype = checkModel.checkModel.ctype)
  let attaching := checkModel.attachingEids ++ [eid]
  let registered ← (List.range modifiedRemote.length).foldlM
    (registerRemote errorModel eid ownerGid modifiedRemote resolved) { coordinator with
      checkModels := coordinator.checkModels.insert errorModel.cid { checkModel with
        attachingEids := attaching
        errorModelReady := checkModel.errorModelReady ||
          attaching.length == checkModel.checkModel.errorModelCount.getD 1 } }
  some { registered with
    errorModels := registered.errorModels.insert eid ⟨{ errorModel with eid := eid },
      modifiedRemote⟩ }

def executeErrorModel (coordinator : WindowCoordinator K) (errorModel : ErrorModel K) :
    Option (WindowCoordinator K × Except Status ℕ) :=
  answer coordinator (coordinator.types.checkErrorModel errorModel)
    (fun checked => do
      let _ ← resolveAll checked.2 (coordinator.ownerGid errorModel.cid) coordinator.gadgets
      let assigned ← assignId coordinator.errorModels coordinator.nextEid errorModel.eid
      some (assigned.1, { coordinator with nextEid := assigned.2 }))
    (fun _ eid => coordinator.acceptErrorModel errorModel eid)
    (fun checked checkModel eid coordinator =>
      coordinator.addErrorModel errorModel checked.1 checked.2 checkModel eid)

end Probabilities

end WindowCoordinator

namespace WindowCoordinator

variable {K : Type} [Zero K] [One K] [LinearOrder K] [ToString K]

/-- Execute an instruction; an instruction may create nothing. -/
def execute (coordinator : WindowCoordinator K) (accepting : Bool)
    (instruction : Option (CoordinatorInstruction K)) :
    Option (WindowCoordinator K × Except Status ℕ) :=
  match tryGuard accepting with
  | .error status => some (coordinator, .error status)
  | .ok () =>
    match instruction with
    | none => some (coordinator, .error (.coordinator (.invalidArgument "unknown instruction")))
    | some (.gadget request) => coordinator.executeGadget request
    | some (.checkModel checkModel) => coordinator.executeCheckModel checkModel
    | some (.errorModel errorModel) => coordinator.executeErrorModel errorModel

def loadLibrary {W : Type} (coordinator : WindowCoordinator K) (config : CoordinatorConfig W)
    (accepting : Bool) (library : Library K) :
    WindowCoordinator K × Except Status Unit :=
  let loaded := coordinator.types.loadLibrary config accepting library
  ({ coordinator with types := loaded.1 }, loaded.2)

end WindowCoordinator

end QdkEc
