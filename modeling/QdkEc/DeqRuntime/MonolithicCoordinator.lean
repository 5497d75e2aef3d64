import QdkEc.DeqRuntime.PauliFrameTracker
import QdkEc.Lib.UnionFind

/-!
# Components of the monolithic coordinator

This module models how the coordinator follows connected components of gadgets:
executing a gadget joins the components of its peers, and the decode call that leaves
no unloaded gadget and no unconnected output in a component decodes it.  The decoding
first gathers the component and later takes it out of the coordinator, with other
calls in between.  `none` is a panic.
-/

namespace QdkEc

/-- The counters of a component. -/
structure MonolithicUnionNode where
  setSize : ℕ
  numUnloadedGadgets : ℕ
  numUnconnectedOutputs : ℕ
deriving DecidableEq

namespace MonolithicUnionNode

/-- The counters of two components that are joined; the left root stays one unless its set is the
smaller one. -/
def union (left right : MonolithicUnionNode) : Bool × MonolithicUnionNode :=
  (decide (left.setSize ≥ right.setSize), {
      setSize := left.setSize + right.setSize
      numUnloadedGadgets := left.numUnloadedGadgets + right.numUnloadedGadgets
      numUnconnectedOutputs := left.numUnconnectedOutputs + right.numUnconnectedOutputs })

/-- The counters of a new component. -/
def default : MonolithicUnionNode where
  setSize := 1
  numUnloadedGadgets := 0
  numUnconnectedOutputs := 0

/-- Count a new gadget, whose inputs are connected; `none` is an underflow. -/
def addGadget (outputs connectors : ℕ) (node : MonolithicUnionNode) :
    Option MonolithicUnionNode := do
  guard (connectors ≤ node.numUnconnectedOutputs + outputs)
  some { node with
    numUnloadedGadgets := node.numUnloadedGadgets + 1
    numUnconnectedOutputs := node.numUnconnectedOutputs + outputs - connectors }

/-- Count a loaded gadget; `none` is an underflow. -/
def loadGadget (node : MonolithicUnionNode) : Option MonolithicUnionNode := do
  guard (1 ≤ node.numUnloadedGadgets)
  some { node with numUnloadedGadgets := node.numUnloadedGadgets - 1 }

/-- Nothing is missing in the component. -/
def isComplete (node : MonolithicUnionNode) : Bool :=
  decide (node.numUnloadedGadgets = 0 ∧ node.numUnconnectedOutputs = 0)

end MonolithicUnionNode

/-- The errors that are returned. -/
inductive CoordinatorError
  | notFound (message : String)
  | alreadyExists (message : String)
  | invalidArgument (message : String)
  | failedPrecondition (message : String)
deriving DecidableEq

/-- A gadget that was executed; the receiver is there until the gadget is loaded. -/
structure MonolithicGadget where
  gtype : ℕ
  connectors : List Connector
  outcomes : Option (List Bool)
  outputs : List (Option Connector)
  receiver : Bool
deriving DecidableEq

/-- How far a call of `decodeSubgraph` is: called, with its component gathered, or with the
component taken out. -/
inductive SubgraphStage
  | called
  | gathered (subgraph : List ℕ)
  | taken (subgraph : List ℕ)
deriving DecidableEq

/-- A call of `decodeSubgraph`. -/
structure SubgraphCall where
  gid : ℕ
  stage : SubgraphStage
deriving DecidableEq

/-- What the coordinator stores about gadgets and their components, and the calls of
`decodeSubgraph`. -/
structure MonolithicCoordinator where
  gadgetTypes : GidMap GadgetType
  gadgets : GidMap MonolithicGadget
  nextGid : ℕ
  pendingSubgraphs : UnionFind MonolithicUnionNode
  gidToUnionIndex : GidMap ℕ
  subgraphCalls : List SubgraphCall

namespace MonolithicCoordinator

/-- A coordinator with a library and without gadgets. -/
def new (gadgetTypes : GidMap GadgetType) : MonolithicCoordinator where
  gadgetTypes := gadgetTypes
  gadgets := ∅
  nextGid := 1
  pendingSubgraphs := .empty
  gidToUnionIndex := ∅
  subgraphCalls := []

/-- The next identifier that no gadget has. -/
def nextUnusedGid (gadgets : GidMap MonolithicGadget) : ℕ → ℕ → Option ℕ
  | 0, _ => none
  | fuel + 1, gid => if gid ∈ gadgets then nextUnusedGid gadgets fuel (gid + 1) else some gid

/-- The identifier of a new gadget and the next one to try; zero asks for an unused one. -/
def assignGid (coordinator : MonolithicCoordinator) (gid : ℕ) : Option (ℕ × ℕ) :=
  if gid = 0 then
    (nextUnusedGid coordinator.gadgets (coordinator.gadgets.keys.length + 1)
      coordinator.nextGid).map fun next => (next, next + 1)
  else some (gid, coordinator.nextGid)

/-- Join the component of a new gadget and the component of a peer, and tell the peer. -/
def connectPort (gid unionIndex : ℕ) (coordinator : MonolithicCoordinator)
    (connection : Connector × ℕ) :
    Option MonolithicCoordinator := do
  let peer ← coordinator.gadgets.lookup connection.1.gid
  guard (peer.outputs[connection.1.port]? = some none)
  let peerUnionIndex ← coordinator.gidToUnionIndex.lookup connection.1.gid
  let joined ← coordinator.pendingSubgraphs.union MonolithicUnionNode.union unionIndex
    peerUnionIndex
  some { coordinator with
    pendingSubgraphs := joined.1
    gadgets := coordinator.gadgets.insert connection.1.gid { peer with
      outputs := peer.outputs.set connection.1.port (some ⟨gid, connection.2⟩) } }

def addGadget (coordinator : MonolithicCoordinator) (gid gtype : ℕ) (gadgetType : GadgetType)
    (connectors : List Connector) :
    Option MonolithicCoordinator := do
  guard (connectors.length = gadgetType.inputs.length)
  let inserted := coordinator.pendingSubgraphs.insert .default
  let connected ← connectors.zipIdx.foldlM (connectPort gid inserted.2) { coordinator with
    pendingSubgraphs := inserted.1
    gidToUnionIndex := coordinator.gidToUnionIndex.insert gid inserted.2 }
  let counted ← connected.pendingSubgraphs.modify inserted.2
    (MonolithicUnionNode.addGadget gadgetType.outputs.length connectors.length)
  some { connected with
    pendingSubgraphs := counted.1
    gadgets := connected.gadgets.insert gid {
      gtype := gtype
      connectors := connectors
      outcomes := none
      outputs := List.replicate gadgetType.outputs.length none
      receiver := true } }

def execute (coordinator : MonolithicCoordinator) (gid gtype : ℕ) (connectors : List Connector) :
    Option (MonolithicCoordinator × Except CoordinatorError ℕ) := do
  let assigned ← coordinator.assignGid gid
  let coordinator := { coordinator with nextGid := assigned.2 }
  match coordinator.gadgetTypes.lookup gtype with
  | none => some (coordinator, .error (.notFound s!"gtype={gtype}"))
  | some gadgetType => do
      let added ← coordinator.addGadget assigned.1 gtype gadgetType connectors
      some (added, .ok assigned.1)

/-- The gadget and the outcomes of a decode request that is accepted; the request may have been
rejected before, by its modifiers or while it waited for error models. -/
def acceptOutcomes (coordinator : MonolithicCoordinator) (gid : ℕ)
    (rejected : Option CoordinatorError) (outcomes lossMask : Option (List Bool)) :
    Except CoordinatorError (MonolithicGadget × List Bool) := do
  rejected.elim (.ok ()) .error
  let gadget ← (coordinator.gadgets.lookup gid).elim (.error (.notFound s!"gid={gid}")) .ok
  if gadget.outcomes.isSome then .error (.alreadyExists s!"gid={gid} outcomes loaded")
  let outcomes ← outcomes.elim (.error (.invalidArgument "missing outcomes")) .ok
  let gadgetType ← (coordinator.gadgetTypes.lookup gadget.gtype).elim
    (.error (.failedPrecondition s!"gtype={gadget.gtype} is not loaded")) .ok
  if outcomes.length ≠ gadgetType.measurementCount then
    .error (.invalidArgument (s!"outcomes size {outcomes.length} does not match gadget " ++
      s!"measurement count {gadgetType.measurementCount}"))
  let size := (lossMask.map List.length).getD outcomes.length
  if outcomes.length ≠ size then
    .error (.invalidArgument
      s!"loss_mask size {size} does not match outcomes size {outcomes.length}")
  .ok (gadget, outcomes)

/-- Load the outcomes of a gadget; whether the gadget is the last one of its component is
returned. -/
def loadOutcomes (coordinator : MonolithicCoordinator) (gid : ℕ) (gadget : MonolithicGadget)
    (outcomes : List Bool) :
    Option (MonolithicCoordinator × Bool) := do
  let unionIndex ← coordinator.gidToUnionIndex.lookup gid
  let counted ← coordinator.pendingSubgraphs.modify unionIndex MonolithicUnionNode.loadGadget
  guard (gadget.receiver = true)
  let isFinalGadget := counted.2.isComplete
  some ({ coordinator with
    pendingSubgraphs := counted.1
    gadgets := coordinator.gadgets.insert gid
      { gadget with outcomes := some outcomes, receiver := false }
    subgraphCalls := coordinator.subgraphCalls ++
      if isFinalGadget then [⟨gid, .called⟩] else [] }, isFinalGadget)

/-- A decode call, until it calls `decodeSubgraph` or waits for its result. -/
def decode (coordinator : MonolithicCoordinator) (gid : ℕ) (rejected : Option CoordinatorError)
    (outcomes lossMask : Option (List Bool)) :
    Option (MonolithicCoordinator × Except CoordinatorError Bool) :=
  match coordinator.acceptOutcomes gid rejected outcomes lossMask with
  | .error error => some (coordinator, .error error)
  | .ok accepted => do
      let loaded ← coordinator.loadOutcomes gid accepted.1 accepted.2
      some (loaded.1, .ok loaded.2)

/-- The gadgets next to a gadget; `none` is an unconnected output. -/
def neighbours (gadget : MonolithicGadget) : Option (List ℕ) := do
  let outputs ← gadget.outputs.mapM id
  some (outputs.map Connector.gid ++ gadget.connectors.map Connector.gid)

/-- Add a gadget to a subgraph and to its new boundary unless it is there. -/
def visit (found : List ℕ × List ℕ) (next : ℕ) : List ℕ × List ℕ :=
  if next ∈ found.1 then found else (found.1 ++ [next], found.2 ++ [next])

/-- Visit the gadgets next to a gadget of the boundary. -/
def expand (gadgets : GidMap MonolithicGadget) (found : List ℕ × List ℕ) (boundaryGid : ℕ) :
    Option (List ℕ × List ℕ) := do
  let gadget ← gadgets.lookup boundaryGid
  let next ← neighbours gadget
  some (next.foldl visit found)

/-- Expand a subgraph until nothing is new. -/
def expandAll (gadgets : GidMap MonolithicGadget) : ℕ → List ℕ × List ℕ → Option (List ℕ)
  | _, (subgraph, []) => some subgraph
  | 0, (_, _ :: _) => none
  | fuel + 1, (subgraph, boundary) => do
      let found ← boundary.foldlM (expand gadgets) (subgraph, [])
      expandAll gadgets fuel found

/-- The connected subgraph of a gadget. -/
def getSubgraph (gadgets : GidMap MonolithicGadget) (gid : ℕ) : Option (List ℕ) :=
  expandAll gadgets (gadgets.keys.length + 1) ([gid], [gid])

/-- Gather the component of a call of `decodeSubgraph`. -/
def gather (coordinator : MonolithicCoordinator) (index : ℕ) :
    Option MonolithicCoordinator := do
  let call ← coordinator.subgraphCalls[index]?
  guard (call.stage = .called)
  let subgraph ← getSubgraph coordinator.gadgets call.gid
  some { coordinator with
    subgraphCalls := coordinator.subgraphCalls.set index ⟨call.gid, .gathered subgraph⟩ }

def removeGadget (gadgets : GidMap MonolithicGadget) (gid : ℕ) : Option (GidMap MonolithicGadget) :=
  if gid ∈ gadgets then some (gadgets.erase gid) else none

/-- The component that a call of `decodeSubgraph` has gathered and not taken yet. -/
def SubgraphStage.gathered? : SubgraphStage → Option (List ℕ)
  | .gathered subgraph => some subgraph
  | _ => none

/-- Take the gathered component of a call of `decodeSubgraph` out of the coordinator. -/
def take (coordinator : MonolithicCoordinator) (index : ℕ) :
    Option MonolithicCoordinator := do
  let call ← coordinator.subgraphCalls[index]?
  let subgraph ← SubgraphStage.gathered? call.stage
  let gadgets ← subgraph.foldlM removeGadget coordinator.gadgets
  some { coordinator with
    gadgets := gadgets
    subgraphCalls := coordinator.subgraphCalls.set index ⟨call.gid, .taken subgraph⟩ }

/-- An atomic part of a call of the coordinator. -/
inductive Event
  | execute
      (gid gtype : ℕ)
      (connectors : List Connector)
  | decode
      (gid : ℕ)
      (rejected : Option CoordinatorError)
      (outcomes lossMask : Option (List Bool))
  | gather (index : ℕ)
  | take (index : ℕ)

/-- One event. -/
def step (coordinator : MonolithicCoordinator) : Event → Option MonolithicCoordinator
  | .execute gid gtype connectors => (coordinator.execute gid gtype connectors).map Prod.fst
  | .decode gid rejected outcomes lossMask =>
    (coordinator.decode gid rejected outcomes lossMask).map Prod.fst
  | .gather index => coordinator.gather index
  | .take index => coordinator.take index

/-- A sequence of events. -/
def run (coordinator : MonolithicCoordinator) (events : List Event) :
    Option MonolithicCoordinator :=
  events.foldlM step coordinator

end MonolithicCoordinator

end QdkEc
