import Mathlib.Data.List.AList
import Mathlib.Data.List.Sort
import QdkEc.Lib.OptionTraversal

/-!
# Validation of composed gadgets

This module models the body of a `COMPOSE` definition, how it is flattened, and the four
checks that come before its program is built: the statements and the number of their
wires, the codes that wires carry, wires bound to several ports, and wires that are left
over.  Each check tracks wires with a dictionary of its own.
-/

namespace QdkEc

namespace Compose

/-- A port declaration with the wires it binds. -/
structure PortStatement where
  codeName : String
  qubitIndices : List ℕ
  nonempty : qubitIndices ≠ []
deriving DecidableEq

def PortStatement.firstWire (port : PortStatement) : ℕ :=
  port.qubitIndices.head port.nonempty

/-- An application with the wires of its clauses. -/
structure GadgetApplication where
  gadgetName : String
  inIndices : Option (List ℕ)
  outIndices : Option (List ℕ)
deriving DecidableEq

/-- The wires of the `IN` clause. -/
def GadgetApplication.inWires (app : GadgetApplication) : List ℕ :=
  app.inIndices.getD []

/-- The wires of the `OUT` clause. -/
def GadgetApplication.outWires (app : GadgetApplication) : List ℕ :=
  app.outIndices.getD []

/-- Neither clause is given. -/
def GadgetApplication.isShortcut (app : GadgetApplication) : Bool :=
  app.inIndices.isNone && app.outIndices.isNone

/-- A logical Pauli product that is applied to a wire when a readout is set. -/
structure ConditionalCorrection where
  readoutOffset : ℕ
  paulis : List (Char × ℕ)
  wire : ℕ
deriving DecidableEq

/-- A target of an instruction: only qubits are wires. -/
inductive Target
  | qubit (index : ℕ)
  | other
deriving DecidableEq

/-- A decorator of a definition. -/
structure Decorator where
  name : String
  arguments : List String
deriving DecidableEq

/-- A statement in the body of a definition. -/
inductive ComposeStatement
  | application (app : GadgetApplication)
  | conditional (correction : ConditionalCorrection)
  | instruction (name : String) (targets : List Target)
  | repeatBlock (count : ℕ) (body : List ComposeStatement)
  | input (port : PortStatement)
  | output (port : PortStatement)
  | unsupported (kind : String)

/-- A `COMPOSE` definition. -/
structure ComposeDefinition where
  decorators : List Decorator
  body : List ComposeStatement

/-- A gadget or composed gadget that was declared before: the codes of its port declarations, and
the port types and the number of readouts of the gadget type that was built for it. -/
structure SubDefinition where
  inputPorts : List String
  outputPorts : List String
  inputs : List ℕ
  outputs : List ℕ
  readouts : ℕ

/-- What is used of a port type: logical qubits and observables. -/
structure JitPortType where
  k : ℕ
  observables : ℕ

/-- What is declared before a definition. -/
structure Environment where
  definition : String → Option SubDefinition
  ptypeOfCode : String → Option ℕ
  portType : ℕ → Option JitPortType

/-- What a wire was written by. -/
inductive Producer
  | input (codeName : String)
  | step (index : ℕ) (gadgetName : String) (port : ℕ)
deriving DecidableEq

/-- Which ports are declared. -/
inductive PortKind
  | input
  | output
deriving DecidableEq

/-- Why a definition is rejected or its program cannot be built. -/
inductive ComposeError
  | unsupportedDecorators (names : List String)
  | repeatedPrivate
  | privateArguments
  | repropagateArguments (arguments : List String)
  | unknownGadget (repeats : ℕ) (name : String)
  | rawInstruction (repeats : ℕ) (name : String)
  | unsupportedStatement (repeats : ℕ) (kind : String)
  | shortcutTargets (repeats : ℕ) (name : String) (targets inputs outputs : ℕ)
  | explicitWires (repeats : ℕ) (name : String) (ins outs inputs outputs : ℕ)
  | portTypeMismatch (step : ℕ) (name : String) (port : ℕ) (expected actual : String)
      (producer : Producer)
  | duplicateWires (kind : PortKind) (duplicates : List (ℕ × String × String))
  | danglingWires (intermediate : List (ℕ × Producer)) (dangling missing : List ℕ)
  | unknownDefinition (name : String)
  | unknownCode (name : String)
  | noProducer (wire : ℕ)
  | conditionalWire (correction : ConditionalCorrection)
  | conditionalPortType (correction : ConditionalCorrection) (ptype : ℕ)
  | conditionalOffset (correction : ConditionalCorrection)
  | conditionalHistory (correction : ConditionalCorrection) (readouts : ℕ)
  | pauliLetter (letter : Char)
  | logicalQubit (index qubits : ℕ)
  | outputPort (name : String) (port : ℕ)
deriving DecidableEq

variable (env : Environment)

/-- The declared definition of a name. -/
def Environment.lookup (name : String) : Except ComposeError SubDefinition :=
  match env.definition name with
  | some sub => .ok sub
  | none => .error (.unknownDefinition name)

def checkDecorators (decorators : List Decorator) : Except ComposeError Unit := do
  let unsupported := decorators.filter fun decorator =>
    decorator.name ∉ ["GTYPE", "REPROPAGATE", "PRIVATE"]
  if unsupported ≠ [] then throw (.unsupportedDecorators (unsupported.map Decorator.name))
  let hidden := decorators.filter fun decorator => decorator.name = "PRIVATE"
  if 1 < hidden.length then throw .repeatedPrivate
  if hidden.any fun decorator => decorator.arguments ≠ [] then throw .privateArguments
  decorators.forM fun decorator =>
    if decorator.name = "REPROPAGATE" ∧ decorator.arguments ≠ [] then
      throw (.repropagateArguments decorator.arguments)
    else pure ()

/-- The wires among the targets of an instruction. -/
def qubitTargets (targets : List Target) : List ℕ :=
  targets.filterMap fun target =>
    match target with
    | .qubit index => some index
    | .other => none

def checkShortcutApplication (repeats : ℕ) (name : String) (targets : List Target) :
    Except ComposeError Unit := do
  let sub ← env.lookup name
  let inputs := sub.inputPorts.length
  let outputs := sub.outputPorts.length
  if (qubitTargets targets).length = max inputs outputs then pure ()
  else throw (.shortcutTargets repeats name (qubitTargets targets).length inputs outputs)

def checkExplicitApplication (repeats : ℕ) (app : GadgetApplication) :
    Except ComposeError Unit := do
  let sub ← env.lookup app.gadgetName
  let inputs := sub.inputPorts.length
  let outputs := sub.outputPorts.length
  if app.inWires.length = inputs ∧ app.outWires.length = outputs then pure ()
  else throw (.explicitWires repeats app.gadgetName app.inWires.length app.outWires.length
    inputs outputs)

mutual

def checkStatement (repeats : ℕ) : ComposeStatement → Except ComposeError Unit
  | .application app =>
    if (env.definition app.gadgetName).isNone then
      throw (.unknownGadget repeats app.gadgetName)
    else checkExplicitApplication env repeats app
  | .repeatBlock _ body => checkBody (repeats + 1) body
  | .input _ => pure ()
  | .output _ => pure ()
  | .conditional _ => pure ()
  | .instruction name targets =>
    if (env.definition name).isSome then checkShortcutApplication env repeats name targets
    else throw (.rawInstruction repeats name)
  | .unsupported kind => throw (.unsupportedStatement repeats kind)

def checkBody (repeats : ℕ) : List ComposeStatement → Except ComposeError Unit
  | [] => pure ()
  | statement :: body =>
    match checkStatement repeats statement with
    | .error error => .error error
    | .ok () => checkBody repeats body

end

def validateCompose (compose : ComposeDefinition) : Except ComposeError Unit := do
  checkDecorators compose.decorators
  checkBody env 0 compose.body

/-- What is left of a body: its port declarations, and applications and corrections in order. -/
inductive Item
  | application (app : GadgetApplication)
  | conditional (correction : ConditionalCorrection)
deriving DecidableEq

/-- A flattened body. -/
structure ExpandedBody where
  inputs : List PortStatement
  outputs : List PortStatement
  items : List Item
deriving DecidableEq

/-- One body after another. -/
def ExpandedBody.append (first second : ExpandedBody) : ExpandedBody where
  inputs := first.inputs ++ second.inputs
  outputs := first.outputs ++ second.outputs
  items := first.items ++ second.items

/-- The body without statements. -/
def ExpandedBody.empty : ExpandedBody :=
  ⟨[], [], []⟩

/-- An application whose wires are given once for both clauses. -/
def SubDefinition.applyWires (sub : SubDefinition) (name : String) (wires : List ℕ) :
    GadgetApplication where
  gadgetName := name
  inIndices := some (wires.take sub.inputPorts.length)
  outIndices := some (wires.take sub.outputPorts.length)

mutual

/-- Flatten a statement. -/
def expandStatement : ComposeStatement → ExpandedBody
  | .input port => ⟨[port], [], []⟩
  | .output port => ⟨[], [port], []⟩
  | .application app =>
    if app.isShortcut then
      match env.definition app.gadgetName with
      | none => ⟨[], [], [.application app]⟩
      | some sub => ⟨[], [], [.application (sub.applyWires app.gadgetName app.inWires)]⟩
    else ⟨[], [], [.application app]⟩
  | .conditional correction => ⟨[], [], [.conditional correction]⟩
  | .instruction name targets =>
    match env.definition name with
    | none => .empty
    | some sub => ⟨[], [], [.application (sub.applyWires name (qubitTargets targets))]⟩
  | .repeatBlock count body => (List.replicate count (expandBody body)).foldr .append .empty
  | .unsupported _ => .empty

/-- Flatten the statements of a body. -/
def expandBody : List ComposeStatement → ExpandedBody
  | [] => .empty
  | statement :: body => (expandStatement statement).append (expandBody body)

end

def Item.application? : Item → Option GadgetApplication
  | .application app => some app
  | .conditional _ => none

def ExpandedBody.applications (body : ExpandedBody) : List GadgetApplication :=
  body.items.filterMap Item.application?

def portWires (ports : List PortStatement) : List (ℕ × String) :=
  ports.flatMap fun port => port.qubitIndices.map fun wire => (wire, port.codeName)

/-- The codes of wires with what wrote them. -/
abbrev WireCodes : Type :=
  ℕ → Option (String × Producer)

def checkWireCode (codes : WireCodes) (index : ℕ) (app : GadgetApplication) (sub : SubDefinition)
    (entry : ℕ × ℕ) :
    Except ComposeError Unit :=
  match codes entry.1, sub.inputPorts[entry.2]? with
  | some (actual, producer), some expected =>
    if expected = actual then pure ()
    else throw (.portTypeMismatch index app.gadgetName entry.2 expected actual producer)
  | _, _ => pure ()

def writeWireCodes (codes : WireCodes) (index : ℕ) (app : GadgetApplication) (sub : SubDefinition) :
    WireCodes :=
  (app.outWires.zip sub.outputPorts).zipIdx.foldl
    (fun codes entry => Function.update codes entry.1.1
      (some (entry.1.2, .step index app.gadgetName entry.2)))
    codes

/-- Check that wires carry the codes that applications expect. -/
def validatePortTypesFrom (codes : WireCodes) (index : ℕ) :
    List GadgetApplication → Except ComposeError Unit
  | [] => pure ()
  | app :: apps => do
      let sub ← env.lookup app.gadgetName
      app.inWires.zipIdx.forM (checkWireCode codes index app sub)
      validatePortTypesFrom (writeWireCodes codes index app sub) (index + 1) apps

/-- Check that wires carry the codes that applications expect. -/
def validatePortTypes (body : ExpandedBody) : Except ComposeError Unit :=
  validatePortTypesFrom env
    ((portWires body.inputs).foldl
      (fun codes entry => Function.update codes entry.1 (some (entry.2, .input entry.2)))
      fun _ => none)
    1 body.applications

/-- The wires that were bound before, with the codes of both ports. -/
def duplicatePortWires (seen : AList fun _ : ℕ => String) :
    List (ℕ × String) → List (ℕ × String × String)
  | [] => []
  | (wire, code) :: entries =>
    match seen.lookup wire with
    | some first => (wire, first, code) :: duplicatePortWires seen entries
    | none => duplicatePortWires (seen.insert wire code) entries

/-- Check that each wire is bound to one port of a kind. -/
def checkDuplicates (kind : PortKind) (ports : List PortStatement) : Except ComposeError Unit :=
  if duplicatePortWires ∅ (portWires ports) = [] then pure ()
  else throw (.duplicateWires kind (duplicatePortWires ∅ (portWires ports)))

/-- Check that each wire is bound to one input and one output port. -/
def validateNoDuplicatePortWires (body : ExpandedBody) : Except ComposeError Unit := do
  checkDuplicates .input body.inputs
  checkDuplicates .output body.outputs

/-- The wires that were written and not read, and the writes that were overwritten unread. -/
structure LiveWires where
  live : AList fun _ : ℕ => Producer
  dangling : List (ℕ × Producer)

/-- Write a wire. -/
def LiveWires.produce (wires : LiveWires) (wire : ℕ) (producer : Producer) : LiveWires where
  live := wires.live.insert wire producer
  dangling :=
    match wires.live.lookup wire with
    | some overwritten => wires.dangling ++ [(wire, overwritten)]
    | none => wires.dangling

/-- Read a wire, whether it is live or not. -/
def LiveWires.consume (wires : LiveWires) (wire : ℕ) : LiveWires where
  live := wires.live.erase wire
  dangling := wires.dangling

/-- Read and write the wires of an application. -/
def LiveWires.apply (wires : LiveWires) (index : ℕ) (app : GadgetApplication)
    (sub : SubDefinition) :
    LiveWires :=
  ((app.outWires.take sub.outputPorts.length).zipIdx).foldl
    (fun wires entry => wires.produce entry.1 (.step index app.gadgetName entry.2))
    ((app.inWires.take sub.inputPorts.length).foldl .consume wires)

/-- Read and write the wires of applications. -/
def LiveWires.applyAll (wires : LiveWires) (index : ℕ) :
    List GadgetApplication → Except ComposeError LiveWires
  | [] => pure wires
  | app :: apps => do
      let sub ← env.lookup app.gadgetName
      applyAll (wires.apply index app sub) (index + 1) apps

def LiveWires.ofInputs (inputs : List PortStatement) : LiveWires :=
  (portWires inputs).foldl (fun wires entry => wires.produce entry.1 (.input entry.2)) ⟨∅, []⟩

/-- Check that the wires that are left over are those of output declarations. -/
def validateNoDanglingOutputs (body : ExpandedBody) : Except ComposeError Unit := do
  let wires ← LiveWires.applyAll env (.ofInputs body.inputs) 1 body.applications
  let declared := (portWires body.outputs).map Prod.fst
  let dangling := wires.live.keys.filter (· ∉ declared)
  let missing := declared.dedup.filter (· ∉ wires.live.keys)
  if dangling = [] ∧ missing = [] ∧ wires.dangling = [] then pure ()
  else throw (.danglingWires wires.dangling (dangling.insertionSort (· ≤ ·))
    (missing.insertionSort (· ≤ ·)))

/-- All checks accept a definition. -/
def Accepts (compose : ComposeDefinition) : Prop :=
  validateCompose env compose = .ok () ∧
    validatePortTypes env (expandBody env compose.body) = .ok () ∧
    validateNoDuplicatePortWires (expandBody env compose.body) = .ok () ∧
    validateNoDanglingOutputs env (expandBody env compose.body) = .ok ()

end Compose

end QdkEc
