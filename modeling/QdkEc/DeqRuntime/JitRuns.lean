import QdkEc.DeqRuntime.JitCompiler
import QdkEc.Lib.XorGraph

/-!
# Runs of the compiler

This module models the compiler over time: instructions are compiled one after another,
and the errors of each gadget are resolved port by port in between.  It also states what
a check stands for: the references that are met when it is unfolded through the input
ports, each as often as it is met.  The gadgets of a run form a directed acyclic graph,
since an event compiles a gadget with a new identifier.
-/

namespace QdkEc

/-- The compiler with the errors that are being resolved and with its results. -/
structure JitRun (K : Type) where
  compiler : JitCompiler K
  history : List GadgetRequest
  futures : GidMap (ErrorModelFuture K)
  checkModelTypes : GidMap CheckModelType
  errorModelTypes : GidMap (ErrorModelType K)

/-- What happens next: an instruction is compiled, or the errors of a gadget advance by a port or to
their end. -/
inductive JitEvent (K : Type)
  | compile (instruction : JitInstruction K) (orders : List (List ExplicitMeasurement))
  | advance (gid : ℕ) (orders : List (List ExplicitCheck))

namespace JitRun

variable {K : Type}

/-- A run that has not started. -/
def new (types : JitTypes K) : JitRun K where
  compiler := .new types
  history := []
  futures := ∅
  checkModelTypes := ∅
  errorModelTypes := ∅

/-- Compile an instruction that brings a new gadget. -/
def compile (run : JitRun K) (instruction : JitInstruction K)
    (orders : List (List ExplicitMeasurement)) :
    Option (JitRun K) := do
  let compiled ← run.compiler.compile instruction orders
  let gid := compiled.2.gadget.gid
  guard (gid ∉ run.compiler.gadgets)
  some { run with
    compiler := compiled.1
    history := compiled.2.gadget :: run.history
    futures := run.futures.insert gid compiled.2.future
    checkModelTypes := run.checkModelTypes.insert gid compiled.2.checkModelType }

/-- Advance the errors of a gadget by one output port; `none` is a wait. -/
def resolvePort (run : JitRun K) (gid : ℕ) (future : ErrorModelFuture K) :
    Option (JitRun K) := do
  let checks ← (← run.compiler.resolvePort gid future.ports)
  some { run with
    futures := run.futures.insert gid { future with
      ports := future.ports + 1
      resolved := future.resolved ++ checks } }

/-- Build the errors of a gadget whose virtual checks are resolved. -/
def finish (run : JitRun K) (gid : ℕ) (future : ErrorModelFuture K)
    (orders : List (List ExplicitCheck)) :
    Option (JitRun K) := do
  guard (future.resolved.length = future.gadgetType.unfinishedChecks.length)
  let compiler ← run.compiler.publishOutputVirtualChecks gid future.resolved
  let errorModelType ← JitCompiler.buildErrorModelType gid future.gadgetType.errors
    future.resolved orders
  some { run with
    compiler := compiler
    futures := run.futures.erase gid
    errorModelTypes := run.errorModelTypes.insert gid errorModelType }

/-- What happens at an event. -/
def step (run : JitRun K) : JitEvent K → Option (JitRun K)
  | .compile instruction orders => run.compile instruction orders
  | .advance gid orders => do
      let future ← run.futures.lookup gid
      if future.ports < future.gadgetType.base.gadgetType.outputs.length then
        run.resolvePort gid future
      else run.finish gid future orders

/-- What happens at events, one after another. -/
def run (types : JitTypes K) (events : List (JitEvent K)) : Option (JitRun K) :=
  events.foldlM step (new types)

end JitRun

/-- What is met when a check is unfolded: a measurement, or an unfinished check of a gadget. -/
inductive Reference
  | measurement (gid index : ℕ)
  | unfinishedCheck (gid index : ℕ)
deriving DecidableEq

section Unfold

variable {K : Type} (types : JitTypes K)

/-- The number of virtual checks of the first output ports of a gadget type. -/
def virtualOffset (gadgetType : JitGadgetType K) (port : ℕ) : ℕ :=
  ((gadgetType.base.gadgetType.outputs.take port).map fun ptype =>
    (types.portTypes.lookup ptype).elim 0 JitPortType.stabilizers).sum

/-- The unfinished check that is a virtual check of an output port. -/
def virtualIndex (gadgetType : JitGadgetType K) (port index : ℕ) : ℕ :=
  virtualOffset types gadgetType port + index

def unfoldCheck (unfoldPeer : ℕ → ℕ → ℕ → List Reference) (request : GadgetRequest)
    (check : JitCheck) :
    List Reference :=
  check.measurements.flatMap fun measurement =>
    measurement.inputPort.elim [.measurement request.gid measurement.measurementIndex]
      fun inputPort => (request.connectors[inputPort]?).elim [] fun connector =>
        unfoldPeer connector.gid connector.port measurement.measurementIndex

/-- What is met when a virtual check of an output port is unfolded, the newest gadget first. -/
def unfoldVirtual : List GadgetRequest → ℕ → ℕ → ℕ → List Reference
  | [], _, _, _ => []
  | request :: history, gid, port, index =>
    if request.gid = gid then
      (types.gadgetTypes.lookup request.gtype).elim [] fun gadgetType =>
        let virtual := virtualIndex types gadgetType port index
        .unfinishedCheck gid virtual :: (gadgetType.unfinishedChecks[virtual]?).elim []
          (unfoldCheck (unfoldVirtual history) request)
    else unfoldVirtual history gid port index

def unfinishedCheckOf (history : List GadgetRequest) (gid index : ℕ) :
    Option JitCheck := do
  let request ← history.find? fun request => request.gid = gid
  let gadgetType ← types.gadgetTypes.lookup request.gtype
  gadgetType.unfinishedChecks[index]?

/-- The constant of a reference: whether the check that is met is flipped. -/
def Reference.naturallyFlipped (history : List GadgetRequest) :
    Reference → Bool
  | .measurement _ _ => false
  | .unfinishedCheck gid index =>
    (unfinishedCheckOf types history gid index).elim false JitCheck.naturallyFlipped

/-- A set of measurements and a constant are what references add up to: a measurement is in the set
when it is met an odd number of times, and constants are added. -/
structure Denotes (history : List GadgetRequest) (references : List Reference)
    (expanded : Finset ExplicitMeasurement × Bool) :
    Prop where
  measurements : ∀ measurement, measurement ∈ expanded.1 ↔
    Odd (references.count (.measurement measurement.gid measurement.measurementIndex))
  flipped : expanded.2 = xorAll (references.map (Reference.naturallyFlipped types history))

end Unfold

end QdkEc
