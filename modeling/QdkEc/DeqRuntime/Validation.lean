import QdkEc.DeqRuntime.MonolithicCoordinator
import QdkEc.DeqRuntime.ReweightHandler

/-!
# Models and their validation

This module models the types and the instances of check models and error models, and
how a request is validated: bit vectors, outcomes, probability modifiers and reroutes.
Probabilities are elements of an ordered field, so all of them are finite.
-/

namespace QdkEc

/-- A port through which another gadget is found. -/
inductive RemotePort
  | input (port : ℕ)
  | output (port : ℕ)
deriving DecidableEq

/-- Another gadget whose measurements a check model uses. -/
structure RemoteGadget where
  previousRemoteGadget : Option ℕ
  expectingGtype : ℕ
  measurementBias : ℕ
  absoluteGid : Option ℕ
  port : Option RemotePort
deriving DecidableEq

/-- A measurement of the gadget of a check, or of a remote gadget. -/
structure RemoteMeasurement where
  remoteGadget : Option ℕ
  measurementIndex : ℕ
deriving DecidableEq

/-- A check: the parity of measurements. -/
structure Check where
  measurements : List RemoteMeasurement
  naturallyFlipped : Bool
deriving DecidableEq

/-- The type of check models. -/
structure CheckModelType where
  ctype : ℕ
  gtype : ℕ
  remoteGadgets : List RemoteGadget
  checks : List Check
deriving DecidableEq

/-- Another check model whose checks an error model flips. -/
structure RemoteCheckModel where
  previousRemoteCheckModel : Option ℕ
  expectingCtype : ℕ
  checkBias : ℕ
  absoluteCid : Option ℕ
  port : Option RemotePort
deriving DecidableEq

/-- A check of the check model of an error, or of a remote check model. -/
structure RemoteCheck where
  remoteCheckModel : Option ℕ
  checkIndex : ℕ
deriving DecidableEq

/-- An error: the checks, the output observables and the readouts that it flips. -/
structure ModelError (K : Type) where
  checks : List RemoteCheck
  probability : K
  residual : List ℕ
  readoutFlips : List ℕ
deriving DecidableEq

/-- The type of error models. -/
structure ErrorModelType (K : Type) where
  etype : ℕ
  ctype : ℕ
  remoteCheckModels : List RemoteCheckModel
  errors : List (ModelError K)
deriving DecidableEq

/-- A change of an error model: its probabilities and its remote check models. -/
structure ErrorModelModifier (K : Type) where
  probabilityModifier : Option (ProbabilityModifier K)
  rerouteRemoteCheckModels : List (ℕ × Option RemoteCheckModel)

/-- An error model of a check model. -/
structure ErrorModel (K : Type) where
  etype : ℕ
  cid : ℕ
  modifier : Option (ErrorModelModifier K)
  eid : ℕ

/-- A check model of a gadget. -/
structure CheckModel (K : Type) where
  ctype : ℕ
  gid : ℕ
  rerouteRemoteGadgets : List (ℕ × Option RemoteGadget)
  cid : ℕ
  errorModelCount : Option ℕ
  terminalErrorModel : Option (ErrorModel K)

/-- A packed vector of bits with its size. -/
structure BitVector where
  size : ℕ
  data : List UInt8
deriving DecidableEq

/-- A type of no particular kind. -/
def wildcard : ℕ :=
  0

/-- The check model of checks that are not there yet. -/
def futureCheckCid : ℕ :=
  2 ^ 64 - 3

/-- A bit vector has as many bytes as it needs. -/
def validateDataLen (bitVector : BitVector) (name : String) : Except String Unit :=
  let required := (bitVector.size + 7) / 8
  if bitVector.data.length ≠ required then
    .error (s!"{name} data length ({bitVector.data.length}) does not match required length " ++
      s!"({required}) for {bitVector.size} bits")
  else .ok ()

/-- Outcomes and their loss mask have the size of a gadget. -/
def validateOutcomes (outcomes : BitVector) (lossMask : Option BitVector) (expectedSize : ℕ) :
    Except String Unit := do
  validateDataLen outcomes "outcomes"
  if outcomes.size ≠ expectedSize then
    .error (s!"outcomes size {outcomes.size} does not match gadget measurement count " ++
      s!"{expectedSize}")
  else
    lossMask.elim (.ok ()) fun lossMask => do
      validateDataLen lossMask "loss_mask"
      if outcomes.size ≠ lossMask.size then
        .error s!"loss_mask size {lossMask.size} does not match outcomes size {outcomes.size}"
      else .ok ()

section Probabilities

variable {K : Type} [Zero K] [One K] [LinearOrder K] [ToString K]

/-- The indices and the values of a probability modifier fit an error model. -/
def validateProbabilityModifier (modifier : ProbabilityModifier K) (errorCount : ℕ) :
    Except String Unit := do
  if modifier.probabilities ≠ [] ∧ modifier.probabilities.length ≠ errorCount then
    .error (s!"dense probability modifier has length {modifier.probabilities.length}, " ++
      s!"expected 0 or {errorCount}")
  if modifier.sparseIndices.length ≠ modifier.sparseProbabilities.length then
    .error (s!"sparse probability modifier has {modifier.sparseIndices.length} indices but " ++
      s!"{modifier.sparseProbabilities.length} probabilities")
  (modifier.sparseIndices.find? fun index => errorCount ≤ index).elim (.ok ()) fun index =>
    .error s!"sparse probability modifier index {index} is outside [0, {errorCount})"
  ((modifier.probabilities ++ modifier.sparseProbabilities).find? fun probability =>
    probability < 0 ∨ 1 < probability).elim (.ok ()) fun probability =>
      .error s!"probability modifier value must lie in [0, 1], got {probability}"

end Probabilities

/-- The bound of the indices of reroutes. -/
def remoteRerouteIndexLimit : ℕ :=
  65536

/-- Reroute one remote entry; the entries before it that are missing stay empty. -/
def applyRemoteReroute {A : Type} (kind : String) (modified : List (Option A))
    (reroute : ℕ × Option A) :
    Except String (List (Option A)) :=
  if remoteRerouteIndexLimit ≤ reroute.1 then
    .error s!"{kind} reroute index {reroute.1} must be less than {remoteRerouteIndexLimit}"
  else
    .ok ((modified ++ List.replicate (reroute.1 + 1 - modified.length) none).set reroute.1
      reroute.2)

def applyRemoteReroutes {A : Type} (base : List A) (reroutes : List (ℕ × Option A))
    (kind : String) :
    Except String (List (Option A)) :=
  reroutes.foldlM (applyRemoteReroute kind) (base.map some)

def applyCheckModelReroutes (base : List RemoteGadget) (reroutes : List (ℕ × Option RemoteGadget)) :
    Except String (List (Option RemoteGadget)) :=
  applyRemoteReroutes base reroutes "remote gadget"

def applyErrorModelReroutes {K : Type} (base : List RemoteCheckModel)
    (modifier : Option (ErrorModelModifier K)) :
    Except String (List (Option RemoteCheckModel)) :=
  applyRemoteReroutes base (modifier.elim [] ErrorModelModifier.rerouteRemoteCheckModels)
    "remote check model"

end QdkEc
