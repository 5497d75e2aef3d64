import QdkEc.DeqRuntime.FrameRuns
import QdkEc.DeqRuntime.SymbolicNodes

/-!
# Agreement of the symbolic propagator and the tracker

This module shows that the propagator tells how corrections change frames: flipping a
correction bit changes a readout or an output observable exactly when the bit is one
of the components of the target, also when the outputs of inactive gadgets are held at
zero, and several bits together have the sum of their effects.
-/

namespace QdkEc

open List

/-- The sum of two bit vectors of one length. -/
def xorBits (v w : List Bool) : List Bool :=
  List.zipWith Bool.xor v w

variable {v w : List Bool}

theorem getD_xorBits (hlength : v.length = w.length) (i : ℕ) :
    (xorBits v w).getD i false = (v.getD i false ^^ w.getD i false) := by
  rcases Nat.lt_or_ge i v.length with hi | hi
  · have hi' : i < w.length := hlength ▸ hi
    simp [xorBits, hi, hi']
  · have hi' : w.length ≤ i := hlength ▸ hi
    simp [xorBits, hi, hi']

theorem xorBits_map {A : Type*} (f g : A → Bool) (l : List A) :
    xorBits (l.map f) (l.map g) = l.map fun a => f a ^^ g a := by
  induction l with
  | nil => rfl
  | cons a l ih =>
    rw [map_cons, map_cons, map_cons, ← ih]
    rfl

theorem xorBits_concat (hlength : v.length = w.length) (b : Bool) :
    xorBits (v ++ [b]) (w ++ [b]) = xorBits v w ++ [false] := by
  rw [xorBits, zipWith_append hlength, xorBits]
  simp

theorem AlignedBitMatrix.entry_xorBits (m : AlignedBitMatrix)
    (hlength : v.length = w.length) (i : ℕ) :
    m.entry (xorBits v w) i = (m.entry v i ^^ m.entry w i) := by
  have hsum : Bits.ofBools (xorBits v w) = Bits.ofBools v + Bits.ofBools w := by
    refine Bits.ext_index fun j => ?_
    rw [Bits.index_add, Bits.index_ofBools, Bits.index_ofBools, Bits.index_ofBools,
      getD_xorBits hlength]
  rw [AlignedBitMatrix.entry, hsum, Bits.dot_add_right]
  rfl

theorem xorBits_flatten {vs ws : List (List Bool)}
    (hlengths : List.Forall₂ (fun v w => v.length = w.length) vs ws) :
    xorBits vs.flatten ws.flatten = (List.zipWith xorBits vs ws).flatten := by
  induction hlengths with
  | nil => rfl
  | cons hlength _ ih =>
    rw [flatten_cons, flatten_cons, xorBits, zipWith_append hlength,
      zipWith_cons_cons, flatten_cons, ← ih]
    rfl

theorem xor_readout_difference (raw d d' e e' : Bool) :
    ((raw ^^ d ^^ e) ^^ (raw ^^ d' ^^ e')) = ((e ^^ e') ^^ (d ^^ d')) := by
  decide +revert

theorem xor_residual_difference (c c' p l l' r r' d d' : Bool) :
    ((c ^^ p ^^ l ^^ r ^^ d) ^^ (c' ^^ p ^^ l' ^^ r' ^^ d')) =
      ((c ^^ c') ^^ (l ^^ l') ^^ (r ^^ r') ^^ (d ^^ d')) := by
  decide +revert

/-- The change of a frame. -/
def xorFrame (frame frame' : PauliFrame) : PauliFrame where
  readouts := xorBits frame.readouts frame'.readouts
  residual := xorBits frame.residual frame'.residual

namespace PauliFrameGadget

variable (gadget : PauliFrameGadget)

/-- The readouts that correction bits flip. -/
def linearReadouts (gid : ℕ) (ρ : CorrectionBasis → Bool) (inputs : List Bool) : List Bool :=
  (List.range gadget.numReadouts).map fun i =>
    gadget.readoutPropagation.entry (inputs ++ [false]) i ^^ ρ (.readout gid i)

/-- The output observables that correction bits flip. -/
def linearResidual (gid : ℕ) (ρ : CorrectionBasis → Bool) (inputs remote : List Bool) : List Bool :=
  (List.range gadget.numOutputObservables).map fun i =>
    gadget.correctionPropagation.entry (inputs ++ [false]) i ^^
      gadget.logicalCorrection.entry (gadget.linearReadouts gid ρ inputs) i ^^
      gadget.remoteCorrection remote i ^^ ρ (.residual gid i)

/-- The part of a frame that depends on corrections, without raw data and constants. -/
def linearFrame (gid : ℕ) (ρ : CorrectionBasis → Bool) (inputs remote : List Bool) :
    PauliFrame where
  readouts := gadget.linearReadouts gid ρ inputs
  residual := gadget.linearResidual gid ρ inputs remote

/-- The frame of a gadget whose outputs are held at zero. -/
def zeroFrame : PauliFrame where
  readouts := List.replicate gadget.numReadouts false
  residual := List.replicate gadget.numOutputObservables false

theorem portSlice_xorBits {residual residual' : List Bool}
    (hlength : residual.length = residual'.length) (port : ℕ) :
    gadget.portSlice (xorBits residual residual') port =
      xorBits (gadget.portSlice residual port) (gadget.portSlice residual' port) := by
  rw [portSlice, portSlice, portSlice, xorBits_map]
  exact map_congr_left fun i _ => getD_xorBits hlength i

theorem remoteCorrection_xorBits {remote remote' : List Bool}
    (hlength : remote.length = remote'.length) (i : ℕ) :
    gadget.remoteCorrection (xorBits remote remote') i =
      (gadget.remoteCorrection remote i ^^ gadget.remoteCorrection remote' i) := by
  rw [remoteCorrection, remoteCorrection, remoteCorrection]
  cases gadget.remoteConditionalCorrection with
  | none => rfl
  | some pair => exact pair.2.entry_xorBits hlength i

theorem solvedFrame_xorFrame {gid : ℕ} {ρ : CorrectionBasis → Bool} {decoded decoded' : PauliFrame}
    (hreadout : ∀ i < gadget.numReadouts, ρ (.readout gid i) =
      (decoded.readouts.getD i false ^^ decoded'.readouts.getD i false))
    (hresidual : ∀ i < gadget.numOutputObservables, ρ (.residual gid i) =
      (decoded.residual.getD i false ^^ decoded'.residual.getD i false))
    {inputs inputs' remote remote' : List Bool} (hinputs : inputs.length = inputs'.length)
    (hremote : remote.length = remote'.length) : xorFrame (gadget.solvedFrame decoded inputs remote)
        (gadget.solvedFrame decoded' inputs' remote') =
      gadget.linearFrame gid ρ (xorBits inputs inputs') (xorBits remote remote') := by
  have hconcat : ∀ (m : AlignedBitMatrix) (i : ℕ), m.entry (xorBits inputs inputs' ++ [false]) i =
      (m.entry (inputs ++ [true]) i ^^ m.entry (inputs' ++ [true]) i) := by
    intro m i
    rw [← xorBits_concat hinputs true]
    exact m.entry_xorBits (by simpa using hinputs) i
  have hreadouts : xorBits (gadget.solvedReadouts decoded inputs)
      (gadget.solvedReadouts decoded' inputs') =
        gadget.linearReadouts gid ρ (xorBits inputs inputs') := by
    rw [solvedReadouts, solvedReadouts, xorBits_map, linearReadouts]
    refine map_congr_left fun i hi => ?_
    rw [hconcat, hreadout i (mem_range.mp hi)]
    exact xor_readout_difference _ _ _ _ _
  refine congrArg₂ PauliFrame.mk hreadouts ?_
  change xorBits (gadget.solvedResidual decoded inputs remote)
    (gadget.solvedResidual decoded' inputs' remote') = _
  rw [solvedResidual, solvedResidual, xorBits_map, linearResidual, ← hreadouts]
  refine map_congr_left fun i hi => ?_
  rw [hconcat, gadget.remoteCorrection_xorBits hremote, hresidual i (mem_range.mp hi),
    gadget.logicalCorrection.entry_xorBits (by simp)]
  exact xor_residual_difference _ _ _ _ _ _ _ _ _

end PauliFrameGadget

namespace PauliFrameTracker

variable (tracker : PauliFrameTracker)

/-- The part of the frame equation of a gadget that depends on corrections. -/
def linearEquation (ρ : CorrectionBasis → Bool) (F : ℕ → Option PauliFrame) (gid : ℕ) :
    Option PauliFrame := do
  let gadget ← tracker.gadgets.lookup gid
  let inputs ← gadget.inputs.mapM (tracker.inputSlice F)
  let remote ← gadget.remoteRefs.mapM (remoteValue F)
  some (gadget.linearFrame gid ρ inputs.flatten remote)

/-- The frame equation of a gadget, with the outputs of gadgets that are not included held at
zero. -/
def cutEquation (included : ℕ → Bool) (F : ℕ → Option PauliFrame) (gid : ℕ) :
    Option PauliFrame := do
  let gadget ← tracker.gadgets.lookup gid
  if included gid then tracker.equation F gid else some gadget.zeroFrame

/-- The network of the frame equations in which the outputs of gadgets that are not included are
held at zero. -/
def cutNetwork (included : ℕ → Bool) : Network ℕ PauliFrame where
  dependents gid := (tracker.network.dependents gid).filter included
  loaded gid := ∃ gadget, tracker.gadgets.lookup gid = some gadget ∧
    (included gid = true → gadget.decoded.isSome)
  value := tracker.cutEquation included

variable {tracker}

variable {included : ℕ → Bool}

theorem cutEquation_of_included {gid : ℕ} (hgid : included gid = true) (F : ℕ → Option PauliFrame) :
    tracker.cutEquation included F gid = tracker.equation F gid := by
  rw [cutEquation, hgid]
  cases hgadget : tracker.gadgets.lookup gid with
  | none =>
    rw [equation, hgadget]
    rfl
  | some gadget => rfl

theorem cutEquation_of_not_included {gid : ℕ} (hgid : included gid = false)
    (F : ℕ → Option PauliFrame) : tracker.cutEquation included F gid =
      (tracker.gadgets.lookup gid).map PauliFrameGadget.zeroFrame := by
  rw [cutEquation, hgid]
  cases tracker.gadgets.lookup gid <;> rfl

theorem solves_cutNetwork_of_included (hall : ∀ gid, included gid = true)
    (F : ℕ → Option PauliFrame) :
    (tracker.cutNetwork included).Solves F ↔ tracker.network.Solves F :=
  forall_congr' fun gid => by
    change tracker.cutEquation included F gid = F gid ↔ tracker.equation F gid = F gid
    rw [cutEquation_of_included (hall gid)]

theorem WellFormed.ordered_cutNetwork {order : List ℕ} (h : tracker.WellFormed order)
    (included : ℕ → Bool) : (tracker.cutNetwork included).Ordered order.idxOf order.length where
  rank_lt hv := h.ordered.rank_lt (mem_of_mem_filter hv)
  rank_lt_bound hv := h.ordered.rank_lt_bound (mem_of_mem_filter hv)
  value_congr {F F' v} hF := by
    change tracker.cutEquation included F v = tracker.cutEquation included F' v
    cases hv : included v with
    | true =>
      rw [cutEquation_of_included hv, cutEquation_of_included hv]
      exact h.ordered.value_congr fun u hu => hF u (mem_filter.mpr ⟨hu, hv⟩)
    | false => rw [cutEquation_of_not_included hv, cutEquation_of_not_included hv]
  isSome_value {F v} := by
    change (tracker.cutEquation included F v).isSome ↔ _
    cases hv : included v with
    | true =>
      rw [cutEquation_of_included hv]
      refine h.ordered.isSome_value.trans (and_congr ?_ ?_)
      · change (∃ gadget, _ ∧ _) ↔ ∃ gadget, _ ∧ _
        simp [hv]
      · refine forall_congr' fun u => imp_congr_left ?_
        change v ∈ tracker.network.dependents u ↔ v ∈ List.filter _ _
        simp [hv]
    | false =>
      rw [cutEquation_of_not_included hv, Option.isSome_map]
      constructor
      · intro hsome
        obtain ⟨gadget, hgadget⟩ := Option.isSome_iff_exists.mp hsome
        refine ⟨⟨gadget, hgadget, fun htrue => ?_⟩, fun u hu => ?_⟩
        · rw [hv] at htrue
          cases htrue
        · have hfilter := (mem_filter.mp hu).2
          rw [hv] at hfilter
          cases hfilter
      · rintro ⟨⟨gadget, hgadget, -⟩, -⟩
        rw [hgadget]
        rfl

theorem WellFormed.exists_solves_cutNetwork {order : List ℕ} (h : tracker.WellFormed order)
    (included : ℕ → Bool) : ∃ F, (tracker.cutNetwork included).Solves F := by
  have hordered := h.ordered_cutNetwork included
  obtain ⟨touched, F, hspreads⟩ := hordered.exists_spreads order fun _ => none
  refine ⟨F, hordered.solves_of_spreads hspreads (fun v hv => by cases hv) fun v hv => ?_⟩
  change tracker.cutEquation included _ v = none
  have hnone : tracker.gadgets.lookup v = none :=
    AList.lookup_eq_none.mpr fun hmem => hv (h.mem_order.mpr hmem)
  rw [cutEquation, hnone]
  rfl

end PauliFrameTracker

end QdkEc
