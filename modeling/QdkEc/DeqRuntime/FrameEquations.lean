import QdkEc.DeqRuntime.PauliFrameTracker
import QdkEc.Lib.OptionTraversal
import QdkEc.Lib.Recomputation

/-!
# Frame equations

This module states what the tracker computes: the frame of a gadget as a sum of its
raw data, its correction and what propagates from its inputs and from remote
readouts.  The gadgets of a tracker whose shapes fit form a network of such
equations, and the frame that the tracker computes for a gadget is its value in the
network.
-/

namespace QdkEc

open Option AlignedBitMatrix List

namespace PauliFrameGadget

variable (gadget : PauliFrameGadget)

/-- The readouts of the other gadgets that correct the gadget. -/
def remoteRefs : List RemoteReadout :=
  match gadget.remoteConditionalCorrection with
  | some (remoteRefs, _) => remoteRefs
  | none => []

/-- The correction of an output observable by remote readouts. -/
def remoteCorrection (remote : List Bool) (i : ℕ) : Bool :=
  match gadget.remoteConditionalCorrection with
  | some (_, correctionMatrix) => correctionMatrix.entry remote i
  | none => false

/-- The corrected readouts: raw readouts, decoded flips, and what the inputs and the constant
propagate. -/
def solvedReadouts (decoded : PauliFrame) (inputs : List Bool) : List Bool :=
  (List.range gadget.numReadouts).map fun i =>
    (gadget.rawReadouts.getD []).getD i false ^^ decoded.readouts.getD i false ^^
      gadget.readoutPropagation.entry (inputs ++ [true]) i

/-- The residual: what the inputs and the constant propagate, and the corrections by measurements,
readouts, remote readouts and the decoder. -/
def solvedResidual (decoded : PauliFrame) (inputs remote : List Bool) : List Bool :=
  (List.range gadget.numOutputObservables).map fun i =>
    gadget.correctionPropagation.entry (inputs ++ [true]) i ^^
      gadget.physicalCorrection.entry (gadget.rawMeasurements.getD []) i ^^
      gadget.logicalCorrection.entry (gadget.solvedReadouts decoded inputs) i ^^
      gadget.remoteCorrection remote i ^^ decoded.residual.getD i false

def solvedFrame (decoded : PauliFrame) (inputs remote : List Bool) : PauliFrame where
  readouts := gadget.solvedReadouts decoded inputs
  residual := gadget.solvedResidual decoded inputs remote

/-- The first output observable of a port. -/
def residualStart (port : ℕ) : ℕ :=
  gadget.outputBias.getD port 0

/-- The end of the output observables of a port. -/
def residualStop (port : ℕ) : ℕ :=
  if port < gadget.outputBias.length - 1 then gadget.outputBias.getD (port + 1) 0
  else gadget.numOutputObservables

/-- The number of output observables of a port. -/
def portWidth (port : ℕ) : ℕ :=
  gadget.residualStop port - gadget.residualStart port

/-- The output observables of a port. -/
def portSlice (residual : List Bool) (port : ℕ) : List Bool :=
  (List.range' (gadget.residualStart port) (gadget.portWidth port)).map fun i =>
    residual.getD i false

/-- The gadgets on which the frame depends. -/
def parents : List ℕ :=
  gadget.inputs.map Connector.gid ++ gadget.remoteRefs.map RemoteReadout.gid

/-- The gadgets that depend on the frame. -/
def dependents : List ℕ :=
  gadget.outputs.reduceOption.map Connector.gid ++ gadget.remoteDependents

/-- The gadget without its loaded and computed data. -/
def wiring : PauliFrameGadget :=
  { gadget with frame := none, rawReadouts := none, rawMeasurements := none, decoded := none }

/-- The gadget without its frame. -/
def data : PauliFrameGadget :=
  { gadget with frame := none }

/-- The matrices and the loaded data of a gadget fit together. -/
structure Shaped : Prop where
  logical_rows : gadget.logicalCorrection.rowCount = gadget.numOutputObservables
  physical_rows : gadget.physicalCorrection.rowCount = gadget.numOutputObservables
  propagation_rows : gadget.readoutPropagation.rowCount = gadget.numReadouts
  propagation_columns : gadget.readoutPropagation.columnCount =
    gadget.correctionPropagation.columnCount
  remote : ∀ remoteRefs correctionMatrix,
    gadget.remoteConditionalCorrection = some (remoteRefs, correctionMatrix) →
      correctionMatrix.rowCount = gadget.numOutputObservables ∧
        correctionMatrix.columnCount = remoteRefs.length
  bias_length : gadget.outputBias.length = gadget.outputs.length
  bias_le : ∀ b ∈ gadget.outputBias, b ≤ gadget.numOutputObservables
  raw : ∀ r, gadget.rawReadouts = some r → r.length = gadget.numReadouts
  measurements : ∀ r, gadget.rawMeasurements = some r → r.length = gadget.numMeasurements
  raw_iff : gadget.rawReadouts.isSome = gadget.rawMeasurements.isSome
  decoded : ∀ d, gadget.decoded = some d → gadget.rawReadouts.isSome ∧
    d.readouts.length = gadget.numReadouts ∧ d.residual.length = gadget.numOutputObservables
  frame : ∀ f, gadget.frame = some f →
    f.readouts.length = gadget.numReadouts ∧ f.residual.length = gadget.numOutputObservables

variable {gadget}

theorem eq_of_wiring_eq {A : Type} {f : PauliFrameGadget → A}
    (hf : ∀ gadget : PauliFrameGadget, f gadget.wiring = f gadget) {gadget' : PauliFrameGadget}
    (h : gadget.wiring = gadget'.wiring) : f gadget = f gadget' := by
  rw [← hf, h, hf]

@[simp]
theorem length_solvedReadouts (decoded : PauliFrame) (inputs : List Bool) :
    (gadget.solvedReadouts decoded inputs).length = gadget.numReadouts := by
  simp [solvedReadouts]

@[simp]
theorem length_solvedResidual (decoded : PauliFrame) (inputs remote : List Bool) :
    (gadget.solvedResidual decoded inputs remote).length = gadget.numOutputObservables := by
  simp [solvedResidual]

@[simp]
theorem length_portSlice (residual : List Bool) (port : ℕ) :
    (gadget.portSlice residual port).length = gadget.portWidth port := by
  simp [portSlice]

theorem Shaped.getResidualSlice_eq (h : gadget.Shaped) {residual : List Bool}
    (hresidual : residual.length = gadget.numOutputObservables) {port : ℕ}
    (hport : port < gadget.outputs.length) :
    gadget.getResidualSlice residual port = some (gadget.portSlice residual port) := by
  rw [← h.bias_length] at hport
  have hend : gadget.residualEnd port = some (gadget.residualStop port) := by
    unfold residualEnd residualStop
    split_ifs with hnext
    · rw [getD_eq_getElem _ _ (by omega), getElem?_eq_getElem (by omega)]
    · rfl
  have hstop : gadget.residualStop port ≤ residual.length := by
    rw [hresidual]
    unfold residualStop
    split_ifs with hnext
    · rw [getD_eq_getElem _ _ (by omega)]
      exact h.bias_le _ (getElem_mem _)
    · exact le_rfl
  have hstart : gadget.outputBias[port]? = some (gadget.residualStart port) := by
    rw [residualStart, getD_eq_getElem _ _ hport, getElem?_eq_getElem hport]
  rw [getResidualSlice, hstart, hend]
  refine mapM_eq_some fun i hi => ?_
  rw [mem_range'_1] at hi
  have hlt : i < residual.length := by omega
  rw [getElem?_eq_getElem hlt, getD_eq_getElem _ _ hlt]

theorem Shaped.computeFrame_eq (h : gadget.Shaped) {decoded : PauliFrame}
    (hdecoded : gadget.decoded = some decoded) {inputs remote : List Bool}
    (hinputs : inputs.length + 1 = gadget.correctionPropagation.columnCount)
    (hremote : remote.length = gadget.remoteRefs.length) {remoteReadoutsVec : Option (List Bool)}
    (hvec : gadget.remoteConditionalCorrection.isSome → remoteReadoutsVec = some remote) :
    gadget.computeFrame decoded inputs remoteReadoutsVec =
      some (gadget.solvedFrame decoded inputs remote) := by
  obtain ⟨hraw, hflips, hresidual⟩ := h.decoded decoded hdecoded
  obtain ⟨rawReadouts, hrawReadouts⟩ := isSome_iff_exists.mp hraw
  obtain ⟨rawMeasurements, hrawMeasurements⟩ := isSome_iff_exists.mp (h.raw_iff ▸ hraw)
  have hcolumns : (inputs ++ [true]).length = gadget.correctionPropagation.columnCount := by
    simpa using hinputs
  have hreadouts : xorAssign rawReadouts decoded.readouts =
      some ((List.range gadget.numReadouts).map fun i =>
        rawReadouts.getD i false ^^ decoded.readouts.getD i false) := by
    conv_lhs => rw [eq_map_range (h.raw _ hrawReadouts), eq_map_range hflips]
    exact xorAssign_map_range _ _ _
  have hsolved : ((List.range gadget.numReadouts).map fun i =>
      (rawReadouts.getD i false ^^ decoded.readouts.getD i false) ^^
        gadget.readoutPropagation.entry (inputs ++ [true]) i) =
      gadget.solvedReadouts decoded inputs := by
    rw [solvedReadouts, hrawReadouts, getD_some]
  have hpropagated : gadget.readoutPropagation.mul (inputs ++ [true]) =
      some ((List.range gadget.numReadouts).map
        (gadget.readoutPropagation.entry (inputs ++ [true]))) := by
    rw [mul_eq (hcolumns.trans h.propagation_columns.symm), h.propagation_rows]
  have hlogical : gadget.logicalCorrection.mul (gadget.solvedReadouts decoded inputs) =
      some ((List.range gadget.numOutputObservables).map
        (gadget.logicalCorrection.entry (gadget.solvedReadouts decoded inputs))) := by
    rw [mul_eq (length_solvedReadouts _ _), h.logical_rows]
  have hphysical : gadget.physicalCorrection.mul rawMeasurements =
      some ((List.range gadget.numOutputObservables).map
        (gadget.physicalCorrection.entry rawMeasurements)) := by
    rw [mul_eq (h.measurements _ hrawMeasurements), h.physical_rows]
  have hcorrection : gadget.correctionPropagation.mul (inputs ++ [true]) =
      some ((List.range gadget.numOutputObservables).map
        (gadget.correctionPropagation.entry (inputs ++ [true]))) :=
    mul_eq hcolumns
  have hfinal : ∀ f : ℕ → Bool,
      xorAssign ((List.range gadget.numOutputObservables).map f) decoded.residual =
        some ((List.range gadget.numOutputObservables).map fun i =>
          f i ^^ decoded.residual.getD i false) := by
    intro f
    conv_lhs => rw [eq_map_range hresidual]
    exact xorAssign_map_range _ _ _
  unfold computeFrame
  simp only [bind_eq_bind, hcorrection, hrawMeasurements, hphysical, hrawReadouts, hreadouts,
    hpropagated, hlogical, hsolved, bind_some, xorAssign_map_range, hfinal]
  cases hcc : gadget.remoteConditionalCorrection with
  | none =>
    simp only [solvedFrame, solvedResidual, remoteCorrection, hcc, hrawMeasurements,
      getD_some, Bool.xor_false]
  | some pair =>
    obtain ⟨remoteRefs, correctionMatrix⟩ := pair
    obtain ⟨hrows, hrefs⟩ := h.remote _ _ hcc
    have hmul : correctionMatrix.mul remote =
        some ((List.range gadget.numOutputObservables).map (correctionMatrix.entry remote)) := by
      rw [mul_eq, hrows]
      rw [hremote, hrefs, PauliFrameGadget.remoteRefs, hcc]
    simp only [hvec (by rw [hcc]; rfl), hmul, bind_some, xorAssign_map_range, hfinal,
      solvedFrame, solvedResidual, remoteCorrection, hcc, hrawMeasurements, getD_some]

end PauliFrameGadget

namespace PauliFrameTracker

variable (tracker : PauliFrameTracker)

def frames (gid : ℕ) : Option PauliFrame :=
  (tracker.gadgets.lookup gid).bind PauliFrameGadget.frame

/-- The observables that enter through one connection. -/
def inputSlice (F : ℕ → Option PauliFrame) (connector : Connector) :
    Option (List Bool) := do
  let peer ← tracker.gadgets.lookup connector.gid
  let frame ← F connector.gid
  some (peer.portSlice frame.residual connector.port)

def remoteValue (F : ℕ → Option PauliFrame) (remoteRef : RemoteReadout) :
    Option Bool := do
  let frame ← F remoteRef.gid
  some (frame.readouts.getD remoteRef.readoutIndex false)

def equation (F : ℕ → Option PauliFrame) (gid : ℕ) :
    Option PauliFrame := do
  let gadget ← tracker.gadgets.lookup gid
  let decoded ← gadget.decoded
  let inputs ← gadget.inputs.mapM (tracker.inputSlice F)
  let remote ← gadget.remoteRefs.mapM (remoteValue F)
  some (gadget.solvedFrame decoded inputs.flatten remote)

def network : Network ℕ PauliFrame where
  dependents gid := (tracker.gadgets.lookup gid).elim [] PauliFrameGadget.dependents
  loaded gid := ∃ gadget, tracker.gadgets.lookup gid = some gadget ∧ gadget.decoded.isSome
  value := tracker.equation

/-- The number of observables that enter through a connection. -/
def connectionWidth (connector : Connector) : ℕ :=
  (tracker.gadgets.lookup connector.gid).elim 0 fun peer => peer.portWidth connector.port

/-- The gadgets of a tracker fit together, each with gadgets before it in an order. -/
structure WellFormed (order : List ℕ) : Prop where
  nodup : order.Nodup
  length : order.length = tracker.gadgets.keys.length
  shaped : ∀ {gid gadget}, tracker.gadgets.lookup gid = some gadget → gadget.Shaped
  input : ∀ {gid gadget}, tracker.gadgets.lookup gid = some gadget → ∀ c ∈ gadget.inputs,
    ∃ peer, tracker.gadgets.lookup c.gid = some peer ∧ c.port < peer.outputs.length
  width : ∀ {gid gadget}, tracker.gadgets.lookup gid = some gadget →
    (gadget.inputs.map tracker.connectionWidth).sum + 1 = gadget.correctionPropagation.columnCount
  remote : ∀ {gid gadget}, tracker.gadgets.lookup gid = some gadget → ∀ r ∈ gadget.remoteRefs,
    ∃ remote, tracker.gadgets.lookup r.gid = some remote ∧ r.readoutIndex < remote.numReadouts
  mem_dependents : ∀ {u v}, v ∈ tracker.network.dependents u ↔
    ∃ gadget, tracker.gadgets.lookup v = some gadget ∧ u ∈ gadget.parents
  mem_order : ∀ {gid}, gid ∈ order ↔ gid ∈ tracker.gadgets
  before : ∀ {gid gadget}, tracker.gadgets.lookup gid = some gadget → ∀ u ∈ gadget.parents,
    order.idxOf u < order.idxOf gid

variable {tracker}
variable {order : List ℕ} (h : tracker.WellFormed order)

theorem isSome_equation_iff {F : ℕ → Option PauliFrame} {gid : ℕ} {gadget : PauliFrameGadget}
    (hgadget : tracker.gadgets.lookup gid = some gadget)
    (hinput : ∀ c ∈ gadget.inputs, ∃ peer, tracker.gadgets.lookup c.gid = some peer) :
    (tracker.equation F gid).isSome ↔
      gadget.decoded.isSome ∧ ∀ u ∈ gadget.parents, (F u).isSome := by
  have hinputs : (gadget.inputs.mapM (tracker.inputSlice F)).isSome ↔
      ∀ c ∈ gadget.inputs, (F c.gid).isSome := by
    rw [isSome_mapM_iff]
    refine forall₂_congr fun c hc => ?_
    obtain ⟨peer, hpeer⟩ := hinput c hc
    rw [inputSlice, hpeer]
    cases F c.gid <;> simp
  have hremote : (gadget.remoteRefs.mapM (remoteValue F)).isSome ↔
      ∀ r ∈ gadget.remoteRefs, (F r.gid).isSome := by
    rw [isSome_mapM_iff]
    refine forall₂_congr fun r _ => ?_
    rw [remoteValue]
    cases F r.gid <;> simp
  have hparents : (∀ u ∈ gadget.parents, (F u).isSome) ↔
      (∀ c ∈ gadget.inputs, (F c.gid).isSome) ∧ ∀ r ∈ gadget.remoteRefs, (F r.gid).isSome := by
    rw [PauliFrameGadget.parents]
    simp only [List.mem_append, List.mem_map]
    constructor
    · exact fun hall => ⟨fun c hc => hall _ (.inl ⟨c, hc, rfl⟩),
        fun r hr => hall _ (.inr ⟨r, hr, rfl⟩)⟩
    · rintro ⟨hc, hr⟩ u (⟨c, hmem, rfl⟩ | ⟨r, hmem, rfl⟩)
      · exact hc c hmem
      · exact hr r hmem
  rw [hparents, ← hinputs, ← hremote, equation, hgadget]
  simp only [bind_eq_bind, bind_some]
  cases gadget.decoded <;> cases gadget.inputs.mapM (tracker.inputSlice F) <;>
    cases gadget.remoteRefs.mapM (remoteValue F) <;> simp

include h in
theorem WellFormed.ordered : tracker.network.Ordered order.idxOf order.length where
  rank_lt hv := by
    obtain ⟨gadget, hgadget, hu⟩ := h.mem_dependents.mp hv
    exact h.before hgadget _ hu
  rank_lt_bound {u v} hv := by
    obtain ⟨gadget, hgadget, -⟩ := h.mem_dependents.mp hv
    refine idxOf_lt_length_of_mem (h.mem_order.mpr ?_)
    exact AList.lookup_isSome.mp (isSome_iff_exists.mpr ⟨gadget, hgadget⟩)
  value_congr {F F' v} hF := by
    change tracker.equation F v = tracker.equation F' v
    cases hgadget : tracker.gadgets.lookup v with
    | none =>
      rw [equation, equation, hgadget]
      rfl
    | some gadget =>
      have hsame : ∀ u ∈ gadget.parents, F u = F' u :=
        fun u hu => hF u (h.mem_dependents.mpr ⟨gadget, hgadget, hu⟩)
      have hinputs : gadget.inputs.mapM (tracker.inputSlice F) =
          gadget.inputs.mapM (tracker.inputSlice F') :=
        mapM_congr fun c hc => by
          rw [inputSlice, inputSlice, hsame c.gid (mem_append_left _ (mem_map_of_mem hc))]
      have hremote : gadget.remoteRefs.mapM (remoteValue F) =
          gadget.remoteRefs.mapM (remoteValue F') :=
        mapM_congr fun r hr => by
          rw [remoteValue, remoteValue, hsame r.gid (mem_append_right _ (mem_map_of_mem hr))]
      rw [equation, equation, hgadget, bind_eq_bind, bind_some, bind_eq_bind,
        bind_some, hinputs, hremote]
  isSome_value {F v} := by
    change (tracker.equation F v).isSome ↔ _
    cases hgadget : tracker.gadgets.lookup v with
    | none =>
      rw [equation, hgadget]
      simp [network, hgadget]
    | some gadget =>
      have hinput : ∀ c ∈ gadget.inputs, ∃ peer, tracker.gadgets.lookup c.gid = some peer := by
        intro c hc
        obtain ⟨peer, hpeer, -⟩ := h.input hgadget c hc
        exact ⟨peer, hpeer⟩
      rw [isSome_equation_iff hgadget hinput]
      refine and_congr ?_ ?_
      · simp [network, hgadget]
      · refine forall_congr' fun u => imp_congr_left ?_
        rw [h.mem_dependents]
        simp [hgadget]

end PauliFrameTracker

end QdkEc
