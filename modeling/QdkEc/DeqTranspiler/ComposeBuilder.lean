import Mathlib.Data.Finset.SymmDiff
import QdkEc.DeqTranspiler.ComposeValidation
import QdkEc.Lib.LinearWiring

/-!
# Programs of composed gadgets

This module models the program that is built for a `COMPOSE` definition: a gadget for each
declared input, one for each application, an identity gadget with a correction for each
`CONDITIONAL`, and one gadget that reads the wires of all declared outputs.  The builder
keeps the port that wrote each wire last.
-/

namespace QdkEc

namespace Compose

/-- What a gadget type of the program is made for. -/
inductive GadgetTypeName
  | inputMock (index : ℕ)
  | definition (name : String)
  | identity (ptype : ℕ)
  | outputMock
deriving DecidableEq

/-- A gadget type with the types of its ports and the number of its readouts. -/
structure JitGadgetType where
  name : GadgetTypeName
  inputs : List ℕ
  outputs : List ℕ
  readouts : ℕ
deriving DecidableEq

/-- A correction of observables that depends on a readout of an earlier gadget. -/
structure RemoteCorrection where
  gid : ℕ
  readoutIndex : ℕ
  rows : ℕ
  flipped : Finset ℕ
deriving DecidableEq

/-- An instruction of the program. -/
structure JitInstruction where
  gadgetType : JitGadgetType
  gid : ℕ
  connectors : List (ℕ × ℕ)
  modifier : Option RemoteCorrection
deriving DecidableEq

/-- The ports of an instruction. -/
def JitInstruction.wired (instruction : JitInstruction) : WiredNode ℕ where
  id := instruction.gid
  inTypes := instruction.gadgetType.inputs
  outTypes := instruction.gadgetType.outputs
  connectors := instruction.connectors

/-- What is kept while a program is built: the port that wrote each wire last, the type each wire
carries, and the readouts so far. -/
structure BuildState where
  gid : ℕ
  wireSource : ℕ → Option (ℕ × ℕ)
  wirePtype : ℕ → Option ℕ
  readoutHistory : List (ℕ × ℕ)
  program : List JitInstruction

/-- The state before the first instruction. -/
def BuildState.initial : BuildState :=
  ⟨1, fun _ => none, fun _ => none, [], []⟩

/-- Add an instruction that writes wires. -/
def BuildState.add (state : BuildState) (gadgetType : JitGadgetType) (connectors : List (ℕ × ℕ))
    (modifier : Option RemoteCorrection) (outs : List ℕ) :
    BuildState where
  gid := state.gid + 1
  wireSource := bindPorts state.wireSource state.gid outs
  wirePtype := assignAll state.wirePtype (outs.zip gadgetType.outputs)
  readoutHistory := state.readoutHistory ++
    (List.range gadgetType.readouts).map fun readout => (state.gid, readout)
  program := state.program ++ [⟨gadgetType, state.gid, connectors, modifier⟩]

/-- The port that wrote a wire last. -/
def BuildState.source (state : BuildState) (wire : ℕ) : Except ComposeError (ℕ × ℕ) :=
  match state.wireSource wire with
  | some port => .ok port
  | none => .error (.noProducer wire)

/-- The observables that a logical Pauli product flips, for a number of logical qubits. -/
def pauliToObservableFlips (k : ℕ) : List (Char × ℕ) → Except ComposeError (Finset ℕ)
  | [] => pure ∅
  | (letter, index) :: paulis =>
    let pauli := letter.toUpper
    if pauli ∉ ['X', 'Y', 'Z'] then throw (.pauliLetter letter)
    else if k ≤ index then throw (.logicalQubit index k)
    else do
      let flips ← pauliToObservableFlips k paulis
      let flips := if pauli = 'Z' then flips else symmDiff flips {2 * index + 1}
      pure (if pauli = 'X' then flips else symmDiff flips {2 * index})

/-- The gadget type that keeps what a wire carries. -/
def identityGadgetType (ptype : ℕ) : JitGadgetType :=
  ⟨.identity ptype, [ptype], [ptype], 0⟩

variable (env : Environment)

/-- The correction of a `CONDITIONAL` on a wire of some type. -/
def conditionalModifier (correction : ConditionalCorrection) (ptype : ℕ)
    (readoutHistory : List (ℕ × ℕ)) :
    Except ComposeError RemoteCorrection :=
  match env.portType ptype with
  | none => throw (.conditionalPortType correction ptype)
  | some portType =>
    if hoffset : correction.readoutOffset < 1 then throw (.conditionalOffset correction)
    else if hhistory : readoutHistory.length < correction.readoutOffset then
      throw (.conditionalHistory correction readoutHistory.length)
    else
      let readout := readoutHistory[readoutHistory.length - correction.readoutOffset]
      (pauliToObservableFlips portType.k correction.paulis).map fun flips =>
        ⟨readout.1, readout.2, portType.observables, flips⟩

/-- Add the instruction of a `CONDITIONAL`. -/
def buildConditional (state : BuildState) (correction : ConditionalCorrection) :
    Except ComposeError BuildState := do
  let port ← (state.wireSource correction.wire).elim (.error (.conditionalWire correction)) .ok
  let ptype ← (state.wirePtype correction.wire).elim (.error (.noProducer correction.wire)) .ok
  let modifier ← conditionalModifier env correction ptype state.readoutHistory
  pure (state.add (identityGadgetType ptype) [port] (some modifier) [correction.wire])

def SubDefinition.gadgetType (sub : SubDefinition) (name : String) : JitGadgetType :=
  ⟨.definition name, sub.inputs, sub.outputs, sub.readouts⟩

/-- Add the instruction of an application. -/
def buildApplication (state : BuildState) (app : GadgetApplication) :
    Except ComposeError BuildState := do
  let sub ← env.lookup app.gadgetName
  let connectors ← app.inWires.mapM state.source
  if app.outWires.length ≤ sub.outputs.length then
    pure (state.add (sub.gadgetType app.gadgetName) connectors none app.outWires)
  else throw (.outputPort app.gadgetName sub.outputs.length)

/-- Add the instruction of an item. -/
def buildItem (state : BuildState) : Item → Except ComposeError BuildState
  | .application app => buildApplication env state app
  | .conditional correction => buildConditional env state correction

/-- Add the instruction of a declared input, which writes its first wire. -/
def buildInput (state : BuildState) (entry : (PortStatement × ℕ) × ℕ) : BuildState :=
  state.add ⟨.inputMock entry.2, [], [entry.1.2], 0⟩ [] none [entry.1.1.firstWire]

/-- Add the instruction that reads the wires of all declared outputs. -/
def buildOutput (state : BuildState) (outputs : List (ℕ × ℕ)) :
    Except ComposeError (List JitInstruction) := do
  let connectors ← (outputs.map Prod.fst).mapM state.source
  pure (state.program ++
    [⟨⟨.outputMock, outputs.map Prod.snd, [], 0⟩, state.gid, connectors, none⟩])

/-- The port type of a code. -/
def Environment.ptype (code : String) : Except ComposeError ℕ :=
  match env.ptypeOfCode code with
  | some ptype => .ok ptype
  | none => .error (.unknownCode code)

/-- Build the program of a flattened body. -/
def build (body : ExpandedBody) : Except ComposeError (List JitInstruction) := do
  let inPtypes ← body.inputs.mapM fun port => env.ptype port.codeName
  body.applications.forM fun app => (env.lookup app.gadgetName).map fun _ => ()
  let outPtypes ← (portWires body.outputs).mapM fun entry => env.ptype entry.2
  let state := (body.inputs.zip inPtypes).zipIdx.foldl buildInput .initial
  let state ← body.items.foldlM (buildItem env) state
  buildOutput state (((portWires body.outputs).map Prod.fst).zip outPtypes)

/-- The builder finds the producer of each wire, and in the program that is built each output port
has exactly one consumer and each connector joins an output port of an earlier instance to an input
port of the same type. -/
def BuildsSoundly (compose : ComposeDefinition) : Prop :=
  (∀ wire, build env (expandBody env compose.body) ≠ .error (.noProducer wire)) ∧
    ∀ program, build env (expandBody env compose.body) = .ok program →
      SoundWiring (program.map JitInstruction.wired)

/-- A definition that all checks accept is built soundly. -/
def ValidationSuffices (compose : ComposeDefinition) : Prop :=
  Accepts env compose → BuildsSoundly env compose

/-- The type of the wire of a `CONDITIONAL` that is not refused. -/
def conditionalPtype (ptypes : ℕ → Option ℕ) (readouts : ℕ) (correction : ConditionalCorrection) :
    Option ℕ := do
  let ptype ← ptypes correction.wire
  let portType ← env.portType ptype
  guard (1 ≤ correction.readoutOffset ∧ correction.readoutOffset ≤ readouts)
  guard (pauliToObservableFlips portType.k correction.paulis).isOk
  some ptype

/-- The wires that items read and write, up to the first item that is refused, and whether none is
refused.  In the end, the wires of the declared outputs are read. -/
def itemNodes (outputs : List (ℕ × ℕ)) (ptypes : ℕ → Option ℕ) (readouts : ℕ) :
    List Item → List (WireNode ℕ ℕ) × Bool
  | [] => ([⟨outputs.map Prod.fst, outputs.map Prod.snd, [], []⟩], true)
  | .conditional correction :: items =>
    match conditionalPtype env ptypes readouts correction with
    | none => ([], false)
    | some ptype =>
      let nodes := itemNodes outputs ptypes readouts items
      (⟨[correction.wire], [ptype], [correction.wire], [ptype]⟩ :: nodes.1, nodes.2)
  | .application app :: items =>
    match env.definition app.gadgetName with
    | none => ([], false)
    | some sub =>
      if app.outWires.length ≤ sub.outputs.length then
        let nodes := itemNodes outputs (assignAll ptypes (app.outWires.zip sub.outputs))
          (readouts + sub.readouts) items
        (⟨app.inWires, sub.inputs, app.outWires, sub.outputs⟩ :: nodes.1, nodes.2)
      else ([⟨app.inWires, sub.inputs, [], []⟩], false)

/-- The wire that a declared input writes. -/
def inputNode (entry : PortStatement × ℕ) : WireNode ℕ ℕ :=
  ⟨[], [], [entry.1.firstWire], [entry.2]⟩

/-- The wires that the inputs, items and outputs of a body read and write, up to the first item
that is refused, and whether none is refused. -/
def bodyNodes (body : ExpandedBody) : List (WireNode ℕ ℕ) × Bool :=
  match body.inputs.mapM fun port => env.ptypeOfCode port.codeName,
      (portWires body.outputs).mapM fun entry => env.ptypeOfCode entry.2 with
  | some inPtypes, some outPtypes =>
    let inputs := body.inputs.zip inPtypes
    let nodes := itemNodes env (((portWires body.outputs).map Prod.fst).zip outPtypes)
      (assignAll (fun _ => none) (inputs.map fun entry => (entry.1.firstWire, entry.2))) 0
      body.items
    (inputs.map inputNode ++ nodes.1, nodes.2)
  | _, _ => ([], false)

/-- Each wire that is read before an item is refused was written.  When no item is refused, each
clause reads distinct wires that were not read since they were written, each of the type of its
port, and each application writes all ports of its gadget. -/
structure ReadsWiresLinearly (compose : ComposeDefinition) : Prop where
  bound : BoundNames (fun _ => False) (bodyNodes env (expandBody env compose.body)).1
  linear : (bodyNodes env (expandBody env compose.body)).2 = true →
    ReadsLinearly (fun _ => none) (bodyNodes env (expandBody env compose.body)).1

end Compose

end QdkEc
