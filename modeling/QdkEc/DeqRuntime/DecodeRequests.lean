import QdkEc.DeqRuntime.JitController
import QdkEc.DeqRuntime.MonolithicRequests
import QdkEc.DeqRuntime.WindowRequests

/-!
# Requests to decode

This module models how both coordinators take a request to decode the outcomes of a
gadget: the modifiers are bound to the error models of the gadget, the outcomes are
checked, and then they are stored.  A request that waits for error models is taken when
its wait is over, and a request that is taken waits for its result.  The controller
passes a request on once for each gadget.  `none` is a panic.
-/

namespace QdkEc

def BitVector.getBit (bitVector : BitVector) (index : ℕ) : Option Bool :=
  (bitVector.data[index / 8]?).map fun byte => byte.toNat.testBit (7 - index % 8)

def BitVector.isZero (bitVector : BitVector) : Bool :=
  let fullBytes := bitVector.size / 8
  let remainder := bitVector.size % 8
  (bitVector.data.take fullBytes).all (· == 0) &&
    (remainder == 0 || (bitVector.data.getD fullBytes 0).toNat >>> (8 - remainder) == 0)

/-- The outcomes of a gadget, as they are sent to be decoded. -/
structure Outcomes (K : Type) where
  gid : ℕ
  outcomes : Option BitVector
  modifiers : List (ProbabilityModifier K)
  lossMask : Option BitVector
  decoderSeed : Option ℕ

/-- The bytes that replace lost outcomes, by the seed, the gadget and their number. -/
abbrev LossRandom : Type :=
  ℕ → ℕ → ℕ → List UInt8

section Shared

variable {K W : Type}

/-- Replace lost outcomes by random ones. -/
def applyLossRandomImputation (random : LossRandom) (outcomes : BitVector)
    (lossMask : Option BitVector) (seed gid : ℕ) :
    Option BitVector :=
  match lossMask with
  | none => some outcomes
  | some lossMask => do
      guard (outcomes.size = lossMask.size)
      guard (outcomes.data.length = lossMask.data.length)
      some (if lossMask.isZero then outcomes
        else
          { outcomes with
            data := outcomes.data.zipWith (fun outcome mask => outcome ^^^ mask)
              (lossMask.data.zipWith (fun mask random => random &&& mask)
                (random seed gid outcomes.data.length)) })

/-- The parity of the measurements of a readout. -/
def rawReadout (outcomes : BitVector) (measurementIndices : List ℕ) : Option Bool :=
  measurementIndices.foldlM (fun value index => (outcomes.getBit index).map (value ^^ ·)) false

/-- The outcomes that are stored. -/
structure StoredOutcomes where
  outcomes : BitVector
  measurements : List Bool
  lossMask : Option BitVector
  readouts : List Bool

def storedLossMask (config : CoordinatorConfig W) (gadgetType : CoordinatorGadgetType)
    (lossMask stored : Option BitVector) :
    Option BitVector :=
  match lossMask with
  | none => stored
  | some lossMask =>
    if config.lossHandler.tracksLosses && gadgetType.hasLossModel &&
        (List.range lossMask.size).any fun index => lossMask.getBit index == some true then
      some lossMask
    else stored

def storeOutcomes (config : CoordinatorConfig W) (random : LossRandom)
    (gadgetType : CoordinatorGadgetType) (gid : ℕ) (outcomes : BitVector)
    (lossMask stored : Option BitVector) :
    Option StoredOutcomes := do
  let imputed ← config.lossImputationSeed.elim (some outcomes) fun seed =>
    applyLossRandomImputation random outcomes lossMask seed gid
  let measurements ← (List.range imputed.size).mapM imputed.getBit
  let readouts ← gadgetType.readouts.mapM (rawReadout imputed)
  some ⟨imputed, measurements, storedLossMask config gadgetType lossMask stored, readouts⟩

variable [Zero K] [One K] [LinearOrder K] [ToString K]

def LoadedTypes.bindProbabilityModifier (types : LoadedTypes K)
    (errorModelOf : ℕ → Option (ErrorModel K)) (bound : ℕ × ProbabilityModifier K) :
    Except Status (ℕ × ProbabilityModifier K) := do
  let errorModel ← found (errorModelOf bound.1)
    (.failedPrecondition s!"eid={bound.1} is not loaded")
  let errorModelType ← found (types.errorModelTypes.lookup errorModel.etype)
    (.failedPrecondition s!"etype={errorModel.etype} is not loaded")
  validated (validateProbabilityModifier bound.2 errorModelType.errors.length)
  .ok bound

def LoadedTypes.bindProbabilityModifiers (types : LoadedTypes K)
    (errorModelOf : ℕ → Option (ErrorModel K)) (gid : ℕ) (eids : List ℕ)
    (modifiers : List (ProbabilityModifier K)) :
    Except Status (List (ℕ × ProbabilityModifier K)) := do
  required (modifiers.length ≤ eids.length)
    (.invalidArgument (s!"gid={gid} supplied {modifiers.length} probability modifiers for " ++
      s!"{eids.length} attached error models"))
  (eids.zip modifiers).mapM (types.bindProbabilityModifier errorModelOf)

/-- The outcomes are there, and they have the size of the gadget. -/
def LoadedTypes.checkOutcomes (types : LoadedTypes K) (gtype : ℕ) (outcomes : Outcomes K) :
    Except Status (CoordinatorGadgetType × BitVector) := do
  let data ← found outcomes.outcomes (.invalidArgument "missing outcomes")
  let gadgetType ← found (types.gadgetTypes.lookup gtype)
    (.failedPrecondition s!"gtype={gtype} is not loaded")
  validated (validateOutcomes data outcomes.lossMask gadgetType.gadgetType.measurementCount)
  .ok (gadgetType, data)

end Shared

namespace WindowCoordinator

variable {K W : Type} [Zero K] [One K] [LinearOrder K] [ToString K]

/-- Bind modifiers to the error models of a gadget; a gadget without error models has its terminal
one. -/
def bindProbabilityModifiers (coordinator : WindowCoordinator K) (gid : ℕ)
    (modifiers : List (ProbabilityModifier K)) :
    Except Status (List (ℕ × ProbabilityModifier K)) :=
  if modifiers = [] then .ok []
  else do
    let cid ← found ((coordinator.gadgets.lookup gid).bind WindowGadget.bindingCid)
      (.failedPrecondition s!"gid={gid} has no binding check model")
    let checkModel ← found (coordinator.checkModels.lookup cid)
      (.failedPrecondition s!"cid={cid} is not loaded")
    let terminal := checkModel.checkModel.terminalErrorModel
    let eids := if checkModel.attachingEids = [] then (terminal.map ErrorModel.eid).toList
      else checkModel.attachingEids
    coordinator.types.bindProbabilityModifiers
      (fun eid => ((coordinator.errorModels.lookup eid).map WindowErrorModel.errorModel).or
        (terminal.filter fun errorModel => errorModel.eid = eid)) gid eids modifiers

/-- Check a request to decode. -/
def acceptDecode (coordinator : WindowCoordinator K) (outcomes : Outcomes K) :
    Except Status (WindowGadget K × List (ℕ × ProbabilityModifier K) × CoordinatorGadgetType ×
      BitVector) := do
  let modifiers ← coordinator.bindProbabilityModifiers outcomes.gid outcomes.modifiers
  let gadget ← found (coordinator.gadgets.lookup outcomes.gid) (.notFound s!"gid={outcomes.gid}")
  let checked ← coordinator.types.checkOutcomes gadget.gtype outcomes
  .ok (gadget, modifiers, checked)

/-- Take a request to decode, until it waits. -/
def decode (coordinator : WindowCoordinator K) (config : CoordinatorConfig W) (random : LossRandom)
    (accepting : Bool) (outcomes : Outcomes K) :
    Option (WindowCoordinator K × Except Status Unit) :=
  match tryGuard accepting >>= fun _ => coordinator.acceptDecode outcomes with
  | .error status => some (coordinator, .error status)
  | .ok (gadget, modifiers, gadgetType, data) => do
      let stored ← storeOutcomes config random gadgetType outcomes.gid data outcomes.lossMask
        gadget.lossMask
      let tracker ← coordinator.pauliFrameTracker.loadRaw outcomes.gid stored.readouts
        stored.measurements
      some ({ coordinator with
        pauliFrameTracker := tracker
        gadgets := coordinator.gadgets.insert outcomes.gid { gadget with
          outcomes := some stored.outcomes
          probabilityModifiers := modifiers
          lossMask := stored.lossMask
          decoderSeed := outcomes.decoderSeed } }, .ok ())

/-- Forget all instances, and the types if asked to. -/
def reset (coordinator : WindowCoordinator K) (resetLibrary : Bool) : WindowCoordinator K :=
  { new K with types := if resetLibrary then (new K).types else coordinator.types }

/-- The window coordinator of a controller. -/
def client (config : CoordinatorConfig W) (accepting : Bool) (resetDecoders : Except Status Unit) :
    CoordinatorClient K (WindowCoordinator K) where
  loadLibrary coordinator library := coordinator.loadLibrary config accepting library
  execute coordinator instruction := coordinator.execute accepting (some instruction)
  reset coordinator resetLibrary := (coordinator.reset resetLibrary, resetDecoders)

end WindowCoordinator

namespace MonolithicServer

variable {K W : Type} [Zero K] [One K] [LinearOrder K] [ToString K]

/-- A gadget whose error models may be waited for: its check model, if it has one, is there. -/
def checkReady (server : MonolithicServer K) (gid : ℕ) :
    Except Status Unit := do
  let gadget ← found (server.gadgets.lookup gid) (.notFound s!"gid={gid}")
  gadget.bindingCid.elim (.ok ()) fun cid =>
    (found (server.checkModels.lookup cid) (.failedPrecondition s!"cid={cid} is not loaded")).map
      fun _ => ()

def bindProbabilityModifiers (server : MonolithicServer K) (gid : ℕ)
    (modifiers : List (ProbabilityModifier K)) :
    Except Status (List (ℕ × ProbabilityModifier K)) :=
  if modifiers = [] then .ok []
  else do
    let cid ← found ((server.gadgets.lookup gid).bind ServerGadget.bindingCid)
      (.failedPrecondition s!"gid={gid} has no binding check model")
    let checkModel ← found (server.checkModels.lookup cid)
      (.failedPrecondition s!"cid={cid} is not loaded")
    server.types.bindProbabilityModifiers
      (fun eid => (server.errorModels.lookup eid).map ServerErrorModel.errorModel) gid
      checkModel.attachingEids modifiers

/-- Check a request to decode. -/
def acceptDecode (server : MonolithicServer K) (outcomes : Outcomes K) :
    Except Status (ServerGadget K × List (ℕ × ProbabilityModifier K) × CoordinatorGadgetType ×
      BitVector) := do
  server.checkReady outcomes.gid
  let modifiers ← server.bindProbabilityModifiers outcomes.gid outcomes.modifiers
  let gadget ← found (server.gadgets.lookup outcomes.gid) (.notFound s!"gid={outcomes.gid}")
  required (gadget.outcomes = none) (.alreadyExists s!"gid={outcomes.gid} outcomes loaded")
  let checked ← server.types.checkOutcomes gadget.gtype outcomes
  .ok (gadget, modifiers, checked)

/-- Take a request to decode, until it decodes its component or waits. -/
def decode (server : MonolithicServer K) (config : CoordinatorConfig W) (random : LossRandom)
    (accepting : Bool) (outcomes : Outcomes K) :
    Option (MonolithicServer K × Except Status Unit) :=
  match tryGuard accepting >>= fun _ => server.acceptDecode outcomes with
  | .error status => some (server, .error status)
  | .ok (gadget, modifiers, gadgetType, data) => do
      let stored ← storeOutcomes config random gadgetType outcomes.gid data outcomes.lossMask
        gadget.lossMask
      let unionIndex ← server.gidToUnionIndex.lookup outcomes.gid
      let counted ← server.pendingSubgraphs.modify unionIndex MonolithicUnionNode.loadGadget
      guard (gadget.receiver = true)
      let tracker ← server.pauliFrameTracker.loadRaw outcomes.gid stored.readouts
        stored.measurements
      some ({ server with
        pendingSubgraphs := counted.1
        pauliFrameTracker := tracker
        gadgets := server.gadgets.insert outcomes.gid { gadget with
          outcomes := some stored.outcomes
          probabilityModifiers := modifiers
          lossMask := stored.lossMask
          decoderSeed := outcomes.decoderSeed
          receiver := false } }, .ok ())

/-- Forget all instances, and the types if asked to. -/
def reset (server : MonolithicServer K) (resetLibrary : Bool) : MonolithicServer K :=
  { new K with types := if resetLibrary then (new K).types else server.types }

/-- The monolithic coordinator of a controller. -/
def client (config : CoordinatorConfig W) (accepting : Bool) (resetDecoders : Except Status Unit) :
    CoordinatorClient K (MonolithicServer K) where
  loadLibrary server library := server.loadLibrary config accepting library
  execute server instruction := server.execute accepting (some instruction)
  reset server resetLibrary := (server.reset resetLibrary, resetDecoders)

end MonolithicServer

/-- Decode the outcomes of a gadget, once: the gadget is no longer waiting when the coordinator gets
the request. -/
def JitController.decodeSingle {K S : Type} (controller : JitController K S)
    (decode : S → Outcomes K → Option (S × Except Status Unit)) (outcomes : Outcomes K) :
    Option (JitController K S × Except Status Unit) :=
  if outcomes.gid ∉ controller.undecodedGids then
    some (controller, .error (.coordinator (.invalidArgument
      s!"decode called for unknown or already-decoded gid: {outcomes.gid}")))
  else
    let removed := { controller with
      undecodedGids := controller.undecodedGids.erase outcomes.gid }
    match removed.coordinator with
    | none =>
      some (removed, .error (.coordinator (.failedPrecondition "coordinator not connected")))
    | some state => do
        let answered ← decode state outcomes
        some ({ removed with coordinator := some answered.1 }, answered.2)

end QdkEc
