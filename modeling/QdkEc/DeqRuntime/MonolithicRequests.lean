import QdkEc.DeqRuntime.Requests

/-!
# Requests to the monolithic coordinator

This module models how the monolithic coordinator executes gadgets, check models and
error models.  A gadget joins the components of its peers; the remote entries of the
models are only stored, since they are expanded later.  `none` is a panic.
-/

namespace QdkEc

/-- A gadget that was executed, with the outcomes of its decode request. -/
structure ServerGadget (K : Type) where
  gtype : ℕ
  connectors : List Connector
  outcomes : Option BitVector
  probabilityModifiers : List (ℕ × ProbabilityModifier K)
  lossMask : Option BitVector
  decoderSeed : Option ℕ
  bindingCid : Option ℕ
  outputs : List (Option Connector)
  receiver : Bool

/-- A check model that was executed. -/
structure ServerCheckModel (K : Type) where
  checkModel : CheckModel K
  attachingEids : List ℕ
  errorModelReady : Bool
  modifiedRemoteGadgets : List (Option RemoteGadget)

/-- An error model that was executed. -/
structure ServerErrorModel (K : Type) where
  errorModel : ErrorModel K
  modifiedRemoteCheckModels : List (Option RemoteCheckModel)

/-- What the monolithic coordinator stores. -/
structure MonolithicServer (K : Type) where
  types : LoadedTypes K
  gadgets : GidMap (ServerGadget K)
  checkModels : GidMap (ServerCheckModel K)
  errorModels : GidMap (ServerErrorModel K)
  nextGid : ℕ
  nextCid : ℕ
  nextEid : ℕ
  pendingSubgraphs : UnionFind MonolithicUnionNode
  gidToUnionIndex : GidMap ℕ
  pauliFrameTracker : PauliFrameTracker

namespace MonolithicServer

/-- A coordinator without types and instances. -/
def new (K : Type) : MonolithicServer K where
  types := ⟨∅, ∅, ∅, ∅⟩
  gadgets := ∅
  checkModels := ∅
  errorModels := ∅
  nextGid := 1
  nextCid := 1
  nextEid := 1
  pendingSubgraphs := .empty
  gidToUnionIndex := ∅
  pauliFrameTracker := .new

variable {K : Type}

/-- Join the component of a new gadget and the component of a peer, and tell the peer. -/
def connectPort (gid unionIndex : ℕ) (server : MonolithicServer K) (connection : Connector × ℕ) :
    Option (MonolithicServer K) := do
  let peer ← server.gadgets.lookup connection.1.gid
  guard (peer.outputs[connection.1.port]? = some none)
  let peerUnionIndex ← server.gidToUnionIndex.lookup connection.1.gid
  let joined ← server.pendingSubgraphs.union MonolithicUnionNode.union unionIndex peerUnionIndex
  some { server with
    pendingSubgraphs := joined.1
    gadgets := server.gadgets.insert connection.1.gid { peer with
      outputs := peer.outputs.set connection.1.port (some ⟨gid, connection.2⟩) } }

/-- The number of observables of a port type. -/
def observablesOf (server : MonolithicServer K) (ptype : ℕ) : Option ℕ :=
  (server.types.portTypes.lookup ptype).map PortType.observables

/-- Store a gadget and connect it. -/
def addGadget (server : MonolithicServer K) (request : GadgetRequest)
    (gadgetType : CoordinatorGadgetType) (gid : ℕ) :
    Option (MonolithicServer K) := do
  guard (request.connectors.length = gadgetType.gadgetType.inputs.length)
  let inserted := server.pendingSubgraphs.insert .default
  let connected ← request.connectors.zipIdx.foldlM (connectPort gid inserted.2) { server with
    pendingSubgraphs := inserted.1
    gidToUnionIndex := server.gidToUnionIndex.insert gid inserted.2 }
  let counted ← connected.pendingSubgraphs.modify inserted.2
    (MonolithicUnionNode.addGadget gadgetType.gadgetType.outputs.length
      request.connectors.length)
  let tracker ← server.pauliFrameTracker.addGadget gid gadgetType.gadgetType request.modifier
    server.observablesOf request.connectors
  some { connected with
    pendingSubgraphs := counted.1
    pauliFrameTracker := tracker
    gadgets := connected.gadgets.insert gid {
      gtype := request.gtype
      connectors := request.connectors
      outcomes := none
      probabilityModifiers := []
      lossMask := none
      decoderSeed := none
      bindingCid := none
      outputs := List.replicate gadgetType.gadgetType.outputs.length none
      receiver := true } }

def executeGadget (server : MonolithicServer K) (request : GadgetRequest) :
    Option (MonolithicServer K × Except Status ℕ) :=
  answer server (.ok ())
    (fun _ => (assignId server.gadgets server.nextGid request.gid).map fun assigned =>
      (assigned.1, { server with nextGid := assigned.2 }))
    (fun _ _ => found (server.types.gadgetTypes.lookup request.gtype)
      (.notFound s!"gtype={request.gtype}"))
    (fun _ gadgetType gid server => server.addGadget request gadgetType gid)

def checkCheckModel (server : MonolithicServer K) (checkModel : CheckModel K) :
    Except Status (CheckModelType × List (Option RemoteGadget)) := do
  let checkModelType ← found (server.types.checkModelTypes.lookup checkModel.ctype)
    (.notFound s!"ctype={checkModel.ctype}")
  let modifiedRemote ← validated
    (applyCheckModelReroutes checkModelType.remoteGadgets checkModel.rerouteRemoteGadgets)
  .ok (checkModelType, modifiedRemote)

def acceptCheckModel (server : MonolithicServer K) (checkModel : CheckModel K) (cid : ℕ) :
    Except Status (ServerGadget K) :=
  found (server.gadgets.lookup checkModel.gid)
    (.invalidArgument s!"cid={cid} binding to unknown gid={checkModel.gid}")

def addCheckModel (server : MonolithicServer K) (checkModel : CheckModel K)
    (checkModelType : CheckModelType) (modifiedRemote : List (Option RemoteGadget))
    (gadget : ServerGadget K) (cid : ℕ) :
    Option (MonolithicServer K) := do
  guard (checkModelType.gtype = wildcard ∨ checkModelType.gtype = gadget.gtype)
  guard (gadget.bindingCid = none)
  some { server with
    gadgets := server.gadgets.insert checkModel.gid { gadget with bindingCid := some cid }
    checkModels := server.checkModels.insert cid {
      checkModel := { checkModel with cid := cid }
      attachingEids := []
      errorModelReady := checkModel.errorModelCount == some 0
      modifiedRemoteGadgets := modifiedRemote } }

def executeCheckModel (server : MonolithicServer K) (checkModel : CheckModel K) :
    Option (MonolithicServer K × Except Status ℕ) :=
  answer server (server.checkCheckModel checkModel)
    (fun _ => (assignId server.checkModels server.nextCid checkModel.cid).map fun assigned =>
      (assigned.1, { server with nextCid := assigned.2 }))
    (fun _ cid => server.acceptCheckModel checkModel cid)
    (fun checked gadget cid server =>
      server.addCheckModel checkModel checked.1 checked.2 gadget cid)

def acceptErrorModel (server : MonolithicServer K) (errorModel : ErrorModel K) (eid : ℕ) :
    Except Status (ServerCheckModel K) := do
  let checkModel ← found (server.checkModels.lookup errorModel.cid)
    (.invalidArgument s!"eid={eid} attaching to unknown cid={errorModel.cid}")
  required (eid ∉ server.errorModels) (.alreadyExists s!"eid={eid}")
  required (checkModel.attachingEids.length < checkModel.checkModel.errorModelCount.getD 1)
    (.failedPrecondition "all declared error models are already attached")
  .ok checkModel

def addErrorModel (server : MonolithicServer K) (errorModel : ErrorModel K)
    (errorModelType : ErrorModelType K) (modifiedRemote : List (Option RemoteCheckModel))
    (checkModel : ServerCheckModel K) (eid : ℕ) :
    Option (MonolithicServer K) := do
  guard (errorModelType.ctype = wildcard ∨ errorModelType.ctype = checkModel.checkModel.ctype)
  let attaching := checkModel.attachingEids ++ [eid]
  some { server with
    checkModels := server.checkModels.insert errorModel.cid { checkModel with
      attachingEids := attaching
      errorModelReady := checkModel.errorModelReady ||
        attaching.length == checkModel.checkModel.errorModelCount.getD 1 }
    errorModels := server.errorModels.insert eid ⟨{ errorModel with eid := eid }, modifiedRemote⟩ }

def executeErrorModel [Zero K] [One K] [LinearOrder K] [ToString K] (server : MonolithicServer K)
    (errorModel : ErrorModel K) :
    Option (MonolithicServer K × Except Status ℕ) :=
  answer server (server.types.checkErrorModel errorModel)
    (fun _ => (assignId server.errorModels server.nextEid errorModel.eid).map fun assigned =>
      (assigned.1, { server with nextEid := assigned.2 }))
    (fun _ eid => server.acceptErrorModel errorModel eid)
    (fun checked checkModel eid server =>
      server.addErrorModel errorModel checked.1 checked.2 checkModel eid)

/-- Execute an instruction; an instruction may create nothing. -/
def execute [Zero K] [One K] [LinearOrder K] [ToString K] (server : MonolithicServer K)
    (accepting : Bool) (instruction : Option (CoordinatorInstruction K)) :
    Option (MonolithicServer K × Except Status ℕ) :=
  match tryGuard accepting with
  | .error status => some (server, .error status)
  | .ok () =>
    match instruction with
    | none => some (server, .error (.coordinator (.invalidArgument "unknown instruction")))
    | some (.gadget request) => server.executeGadget request
    | some (.checkModel checkModel) => server.executeCheckModel checkModel
    | some (.errorModel errorModel) => server.executeErrorModel errorModel

def loadLibrary {W : Type} (server : MonolithicServer K) (config : CoordinatorConfig W)
    (accepting : Bool) (library : Library K) :
    MonolithicServer K × Except Status Unit :=
  let loaded := server.types.loadLibrary config accepting library
  ({ server with types := loaded.1 }, loaded.2)

end MonolithicServer

end QdkEc
