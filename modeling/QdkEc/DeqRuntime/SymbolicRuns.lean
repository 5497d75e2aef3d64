import QdkEc.DeqRuntime.SymbolicConstruction

/-!
# Runs with flipped corrections

This module compares two runs of the tracker whose corrections differ in some bits.
The difference of their frames is what the propagator computes for these bits: a
readout or an output observable changes exactly when an odd number of them are
components of its expression, also with the outputs of inactive gadgets held at zero.
-/

namespace QdkEc

open Option List PauliFrameGadget

/-- The correction of a gadget with some bits flipped. -/
def PauliFrame.flip (flipped : CorrectionBasis → Bool) (gid : ℕ) (decoded : PauliFrame) :
    PauliFrame where
  readouts := decoded.readouts.mapIdx fun i b => b ^^ flipped (.readout gid i)
  residual := decoded.residual.mapIdx fun i b => b ^^ flipped (.residual gid i)

/-- A call with some bits of its correction flipped. -/
def TrackerCall.flip (flipped : CorrectionBasis → Bool) : TrackerCall → TrackerCall
  | .loadCorrection gid residual readoutFlips =>
    let decoded := PauliFrame.flip flipped gid ⟨readoutFlips, residual⟩
    .loadCorrection gid decoded.residual decoded.readouts
  | call => call

/-- One bit of the frames of a tracker. -/
def CorrectionBasis.bitOf (F : ℕ → Option PauliFrame) : CorrectionBasis → Option Bool
  | .readout gid index => (F gid).bind fun frame => frame.readouts[index]?
  | .residual gid index => (F gid).bind fun frame => frame.residual[index]?

theorem getD_mapIdx_xor {v : List Bool} {f : ℕ → Bool} {i : ℕ} (hi : i < v.length) :
    (v.mapIdx fun i b => b ^^ f i).getD i false = (v.getD i false ^^ f i) := by
  simp [hi]

theorem lastLoaded_flip (flipped : CorrectionBasis → Bool) (call : TrackerCall) (u : ℕ) :
    lastLoaded [call.flip flipped] u = (lastLoaded [call] u).map (PauliFrame.flip flipped u) := by
  cases call with
  | addGadget gid gadgetType gadgetModifier portTypes connectors => rfl
  | loadRaw gid rawReadouts rawMeasurements => rfl
  | loadCorrection gid residual readoutFlips =>
    rcases eq_or_ne u gid with rfl | hu
    · simp [TrackerCall.flip, lastLoaded]
    · simp [TrackerCall.flip, lastLoaded, hu]

namespace PauliFrameTracker

/-- The gadgets of two trackers differ in their frames and corrections only. -/
def SameBase (tracker tracker' : PauliFrameTracker) : Prop :=
  ∀ u, (tracker'.gadgets.lookup u).map PauliFrameGadget.base =
    (tracker.gadgets.lookup u).map PauliFrameGadget.base

variable {gadget gadget' : PauliFrameGadget} {gid : ℕ}

section SameBase

variable {tracker tracker' : PauliFrameTracker} (hbase : SameBase tracker tracker')

include hbase

theorem SameBase.exists_lookup {u : ℕ} {gadget : PauliFrameGadget}
    (hgadget : tracker.gadgets.lookup u = some gadget) :
    ∃ gadget', tracker'.gadgets.lookup u = some gadget' ∧ gadget'.base = gadget.base := by
  have hu := hbase u
  rw [hgadget, map_some] at hu
  exact map_eq_some_iff.mp hu

theorem SameBase.mem_iff (u : ℕ) : u ∈ tracker'.gadgets ↔ u ∈ tracker.gadgets := by
  rw [← AList.lookup_isSome, ← AList.lookup_isSome, ← isSome_map, hbase u, isSome_map]

theorem SameBase.sameWiring : SameWiring tracker tracker' := by
  have hfactor : ∀ o : Option PauliFrameGadget, o.map wiring =
      (o.map base).map wiring := by
    rintro (_ | gadget) <;> rfl
  intro u
  rw [hfactor, hbase u, ← hfactor]

theorem SameBase.insert (gid : ℕ) (hsame : gadget'.base = gadget.base) :
    SameBase ⟨tracker.gadgets.insert gid gadget⟩ ⟨tracker'.gadgets.insert gid gadget'⟩ := by
  intro u
  rw [lookup_insert_eq, lookup_insert_eq]
  split_ifs
  · rw [map_some, map_some, hsame]
  · exact hbase u

variable {next next' : PauliFrameTracker}

theorem SameBase.modify {f : PauliFrameGadget → Option PauliFrameGadget}
    (k : PauliFrameGadget → PauliFrameGadget)
    (hf : ∀ gadget changed, f gadget = some changed → changed.base = k gadget.base)
    (hnext : tracker.modify gid f = some next) (hnext' : tracker'.modify gid f = some next') :
    SameBase next next' := by
  obtain ⟨gadget, hgadget, hnext⟩ := bind_eq_some_iff.mp hnext
  obtain ⟨changed, hchanged, hnext⟩ := bind_eq_some_iff.mp hnext
  obtain ⟨gadget', hgadget', hnext'⟩ := bind_eq_some_iff.mp hnext'
  obtain ⟨changed', hchanged', hnext'⟩ := bind_eq_some_iff.mp hnext'
  obtain rfl := some_inj.mp hnext
  obtain rfl := some_inj.mp hnext'
  have hsame := hbase gid
  rw [hgadget, hgadget', map_some, map_some, some_inj] at hsame
  refine hbase.insert gid ?_
  rw [hf _ _ hchanged, hf _ _ hchanged', hsame]

omit hbase in
theorem sameBase_foldlM {B : Type} {f : PauliFrameTracker → B → Option PauliFrameTracker}
    (hf : ∀ b {tracker tracker' next next' : PauliFrameTracker}, SameBase tracker tracker' →
      f tracker b = some next → f tracker' b = some next' → SameBase next next') (l : List B)
    {tracker tracker' next next' : PauliFrameTracker} (hbase : SameBase tracker tracker')
    (hnext : l.foldlM f tracker = some next) (hnext' : l.foldlM f tracker' = some next') :
    SameBase next next' := by
  induction l generalizing tracker tracker' with
  | nil =>
    obtain rfl := some_inj.mp hnext
    obtain rfl := some_inj.mp hnext'
    exact hbase
  | cons b l ih =>
    rw [foldlM_cons] at hnext hnext'
    obtain ⟨middle, hmiddle, hnext⟩ := bind_eq_some_iff.mp hnext
    obtain ⟨middle', hmiddle', hnext'⟩ := bind_eq_some_iff.mp hnext'
    exact ih (hf b hbase hmiddle hmiddle') hnext hnext'

omit hbase in
theorem eq_of_base_eq {A : Type} {f : PauliFrameGadget → A}
    (hf : ∀ gadget : PauliFrameGadget, f gadget.base = f gadget) (h : gadget'.base = gadget.base) :
    f gadget' = f gadget := by
  rw [← hf, h, hf]

theorem SameBase.connect {connection : Connector × ℕ}
    (hnext : PauliFrameTracker.connect gid tracker connection = some next)
    (hnext' : PauliFrameTracker.connect gid tracker' connection = some next') :
    SameBase next next' := by
  refine hbase.modify (fun gadget => { gadget with
    outputs := gadget.outputs.set connection.1.port (some ⟨gid, connection.2⟩) })
    (fun gadget changed hchanged => ?_) hnext hnext'
  split_ifs at hchanged
  obtain rfl := some_inj.mp hchanged
  rfl

theorem SameBase.registerRemote {remoteRef : RemoteReadout}
    (hnext : PauliFrameTracker.registerRemote gid tracker remoteRef = some next)
    (hnext' : PauliFrameTracker.registerRemote gid tracker' remoteRef = some next') :
    SameBase next next' := by
  refine hbase.modify (fun gadget => { gadget with
    remoteDependents := gadget.remoteDependents ++ [gid] })
    (fun gadget changed hchanged => ?_) hnext hnext'
  obtain rfl := some_inj.mp hchanged
  rfl

theorem SameBase.addGadget {gadgetType : GadgetType}
    {gadgetModifier : Option GadgetModifier} {portTypes : ℕ → Option ℕ}
    {connectors : List Connector}
    (hnext : tracker.addGadget gid gadgetType gadgetModifier portTypes connectors = some next)
    (hnext' : tracker'.addGadget gid gadgetType gadgetModifier portTypes connectors = some next') :
    SameBase next next' := by
  obtain ⟨-, -, hnext⟩ := bind_eq_some_iff.mp hnext
  obtain ⟨gadget, hgadget, hnext⟩ := bind_eq_some_iff.mp hnext
  obtain ⟨connected, hconnected, hnext⟩ := bind_eq_some_iff.mp hnext
  obtain ⟨-, -, hnext'⟩ := bind_eq_some_iff.mp hnext'
  obtain ⟨gadget', hgadget', hnext'⟩ := bind_eq_some_iff.mp hnext'
  obtain ⟨connected', hconnected', hnext'⟩ := bind_eq_some_iff.mp hnext'
  obtain rfl := some_inj.mp (hgadget.symm.trans hgadget')
  have hsame := sameBase_foldlM (f := PauliFrameTracker.connect gid)
    (fun _ _ _ _ _ hbase hnext hnext' => hbase.connect hnext hnext') _ (hbase.insert gid rfl)
    hconnected hconnected'
  cases hcc : gadget.remoteConditionalCorrection with
  | none =>
    rw [hcc] at hnext hnext'
    obtain rfl := some_inj.mp hnext
    obtain rfl := some_inj.mp hnext'
    exact hsame
  | some pair =>
    rw [hcc] at hnext hnext'
    exact sameBase_foldlM (f := PauliFrameTracker.registerRemote gid)
      (fun _ _ _ _ _ hbase hnext hnext' => hbase.registerRemote hnext hnext') _ hsame hnext hnext'

theorem SameBase.loadRaw {rawReadouts rawMeasurements : List Bool}
    (hnext : tracker.loadRaw gid rawReadouts rawMeasurements = some next)
    (hnext' : tracker'.loadRaw gid rawReadouts rawMeasurements = some next') :
    SameBase next next' := by
  refine hbase.modify (fun gadget => { gadget with
    rawReadouts := some rawReadouts, rawMeasurements := some rawMeasurements })
    (fun gadget changed hchanged => ?_) hnext hnext'
  obtain ⟨-, -, hchanged⟩ := bind_eq_some_iff.mp hchanged
  obtain ⟨-, -, hchanged⟩ := bind_eq_some_iff.mp hchanged
  obtain ⟨-, -, hchanged⟩ := bind_eq_some_iff.mp hchanged
  obtain ⟨-, -, hchanged⟩ := bind_eq_some_iff.mp hchanged
  obtain rfl := some_inj.mp hchanged
  rfl

theorem SameBase.freePort {c : Connector} (hfree : tracker.FreePort c) : tracker'.FreePort c := by
  obtain ⟨peer, hpeer, hport⟩ := hfree
  obtain ⟨peer', hpeer', hsame⟩ := hbase.exists_lookup hpeer
  have houtputs : peer'.outputs = peer.outputs := eq_of_base_eq (fun _ => rfl) hsame
  exact ⟨peer', hpeer', houtputs ▸ hport⟩

theorem SameBase.fits {gadget : PauliFrameGadget} (hfits : tracker.Fits gadget) :
    tracker'.Fits gadget where
  nodup := hfits.nodup
  free c hc := hbase.freePort (hfits.free c hc)
  width := by
    rw [hbase.sameWiring.connectionWidth_eq]
    exact hfits.width
  physical_rows := hfits.physical_rows
  remote_shape := hfits.remote_shape
  remote r hr := by
    obtain ⟨remote, hremote, hindex⟩ := hfits.remote r hr
    obtain ⟨remote', hremote', hsame⟩ := hbase.exists_lookup hremote
    have hcount : remote'.numReadouts = remote.numReadouts := eq_of_base_eq (fun _ => rfl) hsame
    exact ⟨remote', hremote', hcount ▸ hindex⟩

theorem SameBase.admits_flip (flipped : CorrectionBasis → Bool) {call : TrackerCall}
    (hadmits : tracker.Admits call) : tracker'.Admits (call.flip flipped) := by
  cases call with
  | addGadget gid gadgetType gadgetModifier portTypes connectors =>
    obtain ⟨hgid, gadget, hbuild, hfits⟩ := hadmits
    exact ⟨fun hmem => hgid ((hbase.mem_iff gid).mp hmem), gadget, hbuild, hbase.fits hfits⟩
  | loadRaw gid rawReadouts rawMeasurements =>
    obtain ⟨gadget, hgadget, hraw, hreadouts, hmeasurements⟩ := hadmits
    obtain ⟨gadget', hgadget', hsame⟩ := hbase.exists_lookup hgadget
    have hraw' : gadget'.rawReadouts = gadget.rawReadouts := eq_of_base_eq (fun _ => rfl) hsame
    have hreadouts' : gadget'.numReadouts = gadget.numReadouts :=
      eq_of_base_eq (fun _ => rfl) hsame
    have hmeasurements' : gadget'.numMeasurements = gadget.numMeasurements :=
      eq_of_base_eq (fun _ => rfl) hsame
    exact ⟨gadget', hgadget', hraw'.trans hraw, hreadouts.trans hreadouts'.symm,
      hmeasurements.trans hmeasurements'.symm⟩
  | loadCorrection gid residual readoutFlips =>
    obtain ⟨gadget, hgadget, hraw, hreadouts, hresidual⟩ := hadmits
    obtain ⟨gadget', hgadget', hsame⟩ := hbase.exists_lookup hgadget
    have hraw' : gadget'.rawReadouts = gadget.rawReadouts := eq_of_base_eq (fun _ => rfl) hsame
    have hreadouts' : gadget'.numReadouts = gadget.numReadouts :=
      eq_of_base_eq (fun _ => rfl) hsame
    have hresidual' : gadget'.numOutputObservables = gadget.numOutputObservables :=
      eq_of_base_eq (fun _ => rfl) hsame
    refine ⟨gadget', hgadget', hraw' ▸ hraw, ?_, ?_⟩
    · rw [PauliFrame.flip, length_mapIdx, hreadouts, hreadouts']
    · rw [PauliFrame.flip, length_mapIdx, hresidual, hresidual']

end SameBase

/-- Two trackers whose corrections differ in some bits, with the frames that follow from them. -/
structure Differ (flipped : CorrectionBasis → Bool) (tracker tracker' : PauliFrameTracker) :
    Prop where
  base : SameBase tracker tracker'
  decoded : ∀ u, tracker'.decodedOf u = (tracker.decodedOf u).map (PauliFrame.flip flipped u)
  wellFormed : ∃ order, tracker.WellFormed order
  wellFormed' : ∃ order, tracker'.WellFormed order
  solves : tracker.network.Solves tracker.frames
  solves' : tracker'.network.Solves tracker'.frames

theorem differ_new (flipped : CorrectionBasis → Bool) : Differ flipped new new where
  base _ := rfl
  decoded _ := rfl
  wellFormed := ⟨[], wellFormed_new.1⟩
  wellFormed' := ⟨[], wellFormed_new.1⟩
  solves := wellFormed_new.2
  solves' := wellFormed_new.2

theorem Differ.exists_step {flipped : CorrectionBasis → Bool} {tracker tracker' : PauliFrameTracker}
    (h : Differ flipped tracker tracker') {call : TrackerCall} (hadmits : tracker.Admits call) :
    ∃ next next', tracker.step call = some next ∧ tracker'.step (call.flip flipped) = some next' ∧
      Differ flipped next.1 next'.1 := by
  have hadmits' := h.base.admits_flip flipped hadmits
  obtain ⟨order, hwell⟩ := h.wellFormed
  obtain ⟨order', hwell'⟩ := h.wellFormed'
  obtain ⟨next, hnext⟩ := hwell.exists_steps h.solves hadmits
  obtain ⟨next', hnext'⟩ := hwell'.exists_steps h.solves' hadmits'
  refine ⟨next, next', hnext.step, hnext'.step, ?_, fun u => ?_, hnext.wellFormed,
    hnext'.wellFormed, hnext.solves, hnext'.solves⟩
  · have hstep := hnext.step
    have hstep' := hnext'.step
    cases call with
    | addGadget gid gadgetType gadgetModifier portTypes connectors =>
      obtain ⟨added, hadded, rfl⟩ := map_eq_some_iff.mp hstep
      obtain ⟨added', hadded', rfl⟩ := map_eq_some_iff.mp hstep'
      exact h.base.addGadget hadded hadded'
    | loadRaw gid rawReadouts rawMeasurements =>
      obtain ⟨loaded, hloaded, rfl⟩ := map_eq_some_iff.mp hstep
      obtain ⟨loaded', hloaded', rfl⟩ := map_eq_some_iff.mp hstep'
      exact h.base.loadRaw hloaded hloaded'
    | loadCorrection gid residual readoutFlips =>
      obtain ⟨_, _, stop, -, hload, hloads, -⟩ := hwell.exists_loadCorrection_eq h.solves hadmits
      obtain ⟨_, _, stop', -, hload', hloads', -⟩ :=
        hwell'.exists_loadCorrection_eq h.solves' hadmits'
      obtain rfl := some_inj.mp (hstep.symm.trans hload)
      obtain rfl := some_inj.mp (hstep'.symm.trans hload')
      exact fun u => (hloads'.base u).trans ((h.base u).trans (hloads.base u).symm)
  · rw [hnext'.decodedOf, hnext.decodedOf, lastLoaded_flip, h.decoded]
    cases lastLoaded [call] u <;> rfl

section Difference

variable {flipped : CorrectionBasis → Bool} {tracker tracker' : PauliFrameTracker}
variable (h : Differ flipped tracker tracker') (included : ℕ → Bool)

include h

theorem Differ.inputSlice_eq : tracker'.inputSlice = tracker.inputSlice :=
  h.base.sameWiring.inputSlice_eq

variable {F F' : ℕ → Option PauliFrame}

theorem Differ.isSome_iff
    (hF : (tracker.cutNetwork included).Solves F) (hF' : (tracker'.cutNetwork included).Solves F')
    (gid : ℕ) : (F' gid).isSome ↔ (F gid).isSome := by
  obtain ⟨order, hwell⟩ := h.wellFormed
  obtain ⟨order', hwell'⟩ := h.wellFormed'
  have hloaded : (tracker'.cutNetwork included).loaded = (tracker.cutNetwork included).loaded := by
    funext u
    have hdecoded := h.decoded u
    have hlookup := h.base u
    rw [decodedOf, decodedOf] at hdecoded
    refine propext ?_
    change (∃ gadget', _ ∧ _) ↔ ∃ gadget, _ ∧ _
    cases hgadget : tracker.gadgets.lookup u with
    | none =>
      rw [hgadget, map_none, map_eq_none_iff] at hlookup
      rw [hlookup]
    | some gadget =>
      obtain ⟨gadget', hgadget', -⟩ := h.base.exists_lookup hgadget
      rw [hgadget, hgadget', bind_some, bind_some] at hdecoded
      rw [hgadget']
      simp [hdecoded]
  have hancestor : (tracker'.cutNetwork included).Ancestor =
      (tracker.cutNetwork included).Ancestor := by
    have hdependents : ∀ u v, v ∈ tracker'.network.dependents u ↔
        v ∈ tracker.network.dependents u := by
      intro u v
      rw [h.base.sameWiring.dependents_eq]
    refine congrArg Relation.ReflTransGen (funext fun u => funext fun v => propext ?_)
    change v ∈ List.filter _ _ ↔ v ∈ List.filter _ _
    rw [mem_filter, mem_filter, hdependents]
  rw [(hwell'.ordered_cutNetwork included).isSome_iff hF',
    (hwell.ordered_cutNetwork included).isSome_iff hF, hloaded, hancestor]

theorem Differ.xorFrame_eq (hgadget : tracker.gadgets.lookup gid = some gadget)
    (hgadget' : tracker'.gadgets.lookup gid = some gadget') (hwidth : ∀ d, gadget.decoded = some d →
      d.readouts.length = gadget.numReadouts ∧ d.residual.length = gadget.numOutputObservables)
    {decoded decoded' : PauliFrame} (hdecoded : gadget.decoded = some decoded)
    (hdecoded' : gadget'.decoded = some decoded') {inputs inputs' remote remote' : List Bool}
    (hinputs : inputs'.length = inputs.length) (hremote : remote'.length = remote.length) :
    xorFrame (gadget'.solvedFrame decoded' inputs' remote')
        (gadget.solvedFrame decoded inputs remote) =
      gadget.linearFrame gid flipped (xorBits inputs' inputs) (xorBits remote' remote) := by
  obtain ⟨other, hother, hsame⟩ := h.base.exists_lookup hgadget
  obtain rfl := some_inj.mp (hother.symm.trans hgadget')
  have hsolved : other.solvedFrame decoded' inputs' remote' =
      gadget.solvedFrame decoded' inputs' remote' :=
    eq_of_base_eq (f := fun g => g.solvedFrame decoded' inputs' remote') (fun _ => rfl) hsame
  have hflip := h.decoded gid
  rw [decodedOf, decodedOf, hgadget, hgadget', bind_some, bind_some, hdecoded,
    hdecoded', map_some, some_inj] at hflip
  obtain ⟨hreadouts, hresidual⟩ := hwidth decoded hdecoded
  rw [hsolved, hflip]
  refine gadget.solvedFrame_xorFrame (fun i hi => ?_) (fun i hi => ?_) hinputs hremote
  · rw [PauliFrame.flip, getD_mapIdx_xor (hreadouts ▸ hi), Bool.xor_comm (List.getD _ _ _),
      Bool.xor_assoc, Bool.xor_self, Bool.xor_false]
  · rw [PauliFrame.flip, getD_mapIdx_xor (hresidual ▸ hi), Bool.xor_comm (List.getD _ _ _),
      Bool.xor_assoc, Bool.xor_self, Bool.xor_false]

omit h in
theorem length_of_solves (hF : (tracker.cutNetwork included).Solves F)
    {gadget : PauliFrameGadget} (hgadget : tracker.gadgets.lookup gid = some gadget)
    {frame : PauliFrame} (hframe : F gid = some frame) :
    frame.readouts.length = gadget.numReadouts ∧
      frame.residual.length = gadget.numOutputObservables := by
  have hvalue : tracker.cutEquation included F gid = some frame := (hF gid).trans hframe
  cases hincluded : included gid with
  | true =>
    rw [cutEquation_of_included hincluded, equation, hgadget, bind_eq_bind, bind_some] at hvalue
    obtain ⟨decoded, -, hvalue⟩ := bind_eq_some_iff.mp hvalue
    obtain ⟨inputs, -, hvalue⟩ := bind_eq_some_iff.mp hvalue
    obtain ⟨remote, -, hvalue⟩ := bind_eq_some_iff.mp hvalue
    obtain rfl := some_inj.mp hvalue
    exact ⟨PauliFrameGadget.length_solvedReadouts _ _,
      PauliFrameGadget.length_solvedResidual _ _ _⟩
  | false =>
    rw [cutEquation_of_not_included hincluded, hgadget, map_some] at hvalue
    obtain rfl := some_inj.mp hvalue
    exact ⟨length_replicate, length_replicate⟩

omit h in
theorem xorBits_replicate (n : ℕ) :
    xorBits (List.replicate n false) (List.replicate n false) = List.replicate n false := by
  rw [xorBits, zipWith_replicate, Nat.min_self]
  rfl

theorem Differ.inputSlice_xor {G : ℕ → Option PauliFrame}
    (hF : (tracker.cutNetwork included).Solves F) (hF' : (tracker'.cutNetwork included).Solves F')
    {c : Connector} (hG : ∀ old new, F c.gid = some old → F' c.gid = some new →
      G c.gid = some (xorFrame new old)) {slice' slice : List Bool}
    (hslice' : tracker.inputSlice F' c = some slice')
    (hslice : tracker.inputSlice F c = some slice) :
    slice'.length = slice.length ∧ tracker.inputSlice G c = some (xorBits slice' slice) := by
  obtain ⟨peer, hpeer, hslice⟩ := bind_eq_some_iff.mp hslice
  obtain ⟨old, hold, hslice⟩ := bind_eq_some_iff.mp hslice
  rw [inputSlice, hpeer, bind_eq_bind, bind_some] at hslice'
  obtain ⟨new, hnew, hslice'⟩ := bind_eq_some_iff.mp hslice'
  obtain rfl := some_inj.mp hslice
  obtain rfl := some_inj.mp hslice'
  obtain ⟨peer', hpeer', hpeers⟩ := h.base.exists_lookup hpeer
  have hcount : peer'.numOutputObservables = peer.numOutputObservables :=
    eq_of_base_eq (fun _ => rfl) hpeers
  have hlength : new.residual.length = old.residual.length := by
    rw [(length_of_solves included hF' hpeer' hnew).2,
      (length_of_solves included hF hpeer hold).2, hcount]
  refine ⟨by rw [length_portSlice, length_portSlice], ?_⟩
  rw [inputSlice, hpeer, hG old new hold hnew, ← peer.portSlice_xorBits hlength]
  rfl

theorem Differ.remoteValue_xor {G : ℕ → Option PauliFrame}
    (hF : (tracker.cutNetwork included).Solves F) (hF' : (tracker'.cutNetwork included).Solves F')
    {r : RemoteReadout} {remote : PauliFrameGadget}
    (hlookup : tracker.gadgets.lookup r.gid = some remote)
    (hG : ∀ old new, F r.gid = some old → F' r.gid = some new → G r.gid = some (xorFrame new old))
    {value' value : Bool} (hvalue' : remoteValue F' r = some value')
    (hvalue : remoteValue F r = some value) : remoteValue G r = some (value' ^^ value) := by
  obtain ⟨old, hold, hvalue⟩ := bind_eq_some_iff.mp hvalue
  obtain ⟨new, hnew, hvalue'⟩ := bind_eq_some_iff.mp hvalue'
  obtain rfl := some_inj.mp hvalue
  obtain rfl := some_inj.mp hvalue'
  obtain ⟨remote', hlookup', hremotes⟩ := h.base.exists_lookup hlookup
  have hcount : remote'.numReadouts = remote.numReadouts := eq_of_base_eq (fun _ => rfl) hremotes
  have hlength : new.readouts.length = old.readouts.length := by
    rw [(length_of_solves included hF' hlookup' hnew).1,
      (length_of_solves included hF hlookup hold).1, hcount]
  rw [remoteValue, hG old new hold hnew, ← getD_xorBits hlength]
  rfl

/-- The difference of two solutions is what the propagator computes. -/
theorem Differ.frameOf_eq {p : PauliFrameSymbolicPropagator} (hp : p.Represents tracker) (hF : (tracker.cutNetwork included).Solves F)
    (hF' : (tracker'.cutNetwork included).Solves F') {frame frame' : PauliFrame}
    (hframe : F gid = some frame) (hframe' : F' gid = some frame') :
    p.frameOf included flipped gid = some (xorFrame frame' frame) := by
  obtain ⟨order, hwell⟩ := h.wellFormed
  -- The gadgets are followed in the order in which they were added.
  have hrank : ∀ r gid frame frame', order.idxOf gid < r → F gid = some frame →
      F' gid = some frame' → p.frameOf included flipped gid = some (xorFrame frame' frame) := by
    intro r
    induction r with
    | zero =>
      intro gid _ _ hlt
      cases hlt
    | succ r ih =>
      intro gid frame frame' hlt hframe hframe'
      have hvalue : tracker.cutEquation included F gid = some frame := (hF gid).trans hframe
      have hvalue' : tracker'.cutEquation included F' gid = some frame' :=
        (hF' gid).trans hframe'
      obtain ⟨gadget, hgadget, -⟩ := bind_eq_some_iff.mp hvalue
      obtain ⟨gadget', hgadget', -⟩ := bind_eq_some_iff.mp hvalue'
      obtain ⟨other, hother, hsame⟩ := h.base.exists_lookup hgadget
      obtain rfl := some_inj.mp (hother.symm.trans hgadget')
      rw [← hp.solves included flipped gid, cutLinearEquation, hgadget, bind_eq_bind, bind_some]
      cases hincluded : included gid with
      | true =>
        rw [cutEquation_of_included hincluded, equation, hgadget, bind_eq_bind,
          bind_some] at hvalue
        rw [cutEquation_of_included hincluded, equation, hgadget', bind_eq_bind,
          bind_some] at hvalue'
        obtain ⟨decoded, hdecoded, hvalue⟩ := bind_eq_some_iff.mp hvalue
        obtain ⟨inputs, hinputs, hvalue⟩ := bind_eq_some_iff.mp hvalue
        obtain ⟨remote, hremote, hvalue⟩ := bind_eq_some_iff.mp hvalue
        obtain rfl := some_inj.mp hvalue
        obtain ⟨decoded', hdecoded', hvalue'⟩ := bind_eq_some_iff.mp hvalue'
        obtain ⟨inputs', hinputs', hvalue'⟩ := bind_eq_some_iff.mp hvalue'
        obtain ⟨remote', hremote', hvalue'⟩ := bind_eq_some_iff.mp hvalue'
        obtain rfl := some_inj.mp hvalue'
        have hconnectors : other.inputs = gadget.inputs := eq_of_base_eq (fun _ => rfl) hsame
        have hrefs : other.remoteRefs = gadget.remoteRefs :=
          eq_of_base_eq (fun _ => rfl) hsame
        rw [hconnectors, h.inputSlice_eq] at hinputs'
        rw [hrefs] at hremote'
        have hbefore : ∀ u ∈ gadget.parents, order.idxOf u < r := fun u hu =>
          (hwell.before hgadget u hu).trans_le (Nat.lt_succ_iff.mp hlt)
        have hslice : ∀ c ∈ gadget.inputs, ∀ slice' slice,
            tracker.inputSlice F' c = some slice' → tracker.inputSlice F c = some slice →
              slice'.length = slice.length ∧
                tracker.inputSlice (p.frameOf included flipped) c =
                  some (xorBits slice' slice) := fun c hc _ _ =>
          h.inputSlice_xor included hF hF' fun old new => ih c.gid old new
            (hbefore _ (mem_append_left _ (mem_map_of_mem hc)))
        have hvalues : ∀ r ∈ gadget.remoteRefs, ∀ value' value,
            remoteValue F' r = some value' → remoteValue F r = some value →
              remoteValue (p.frameOf included flipped) r = some (value' ^^ value) := by
          intro r hr _ _
          obtain ⟨remoteGadget, hlookup, -⟩ := hwell.remote hgadget r hr
          exact h.remoteValue_xor included hF hF' hlookup fun old new => ih r.gid old new
            (hbefore _ (mem_append_right _ (mem_map_of_mem hr)))
        have hsum := mapM_zipWith (fun c hc slice' slice h₁ h₂ =>
          (hslice c hc slice' slice h₁ h₂).2) hinputs' hinputs
        have hremoteSum := mapM_zipWith hvalues hremote' hremote
        have hlengths := forall₂_of_mapM (fun c hc slice' slice h₁ h₂ =>
          (hslice c hc slice' slice h₁ h₂).1) hinputs' hinputs
        have hremoteLength : remote'.length = remote.length :=
          (mapM_eq_some_iff.mp hremote').length_eq.symm.trans
            (mapM_eq_some_iff.mp hremote).length_eq
        have hinputsLength : inputs'.flatten.length = inputs.flatten.length := by
          rw [length_flatten_inputs hinputs', length_flatten_inputs hinputs]
        have hwidth : ∀ d, gadget.decoded = some d → d.readouts.length = gadget.numReadouts ∧
            d.residual.length = gadget.numOutputObservables :=
          fun d hd => ((hwell.shaped hgadget).decoded d hd).2
        rw [if_pos rfl, linearEquation, hgadget, bind_eq_bind, bind_some, hsum,
          bind_eq_bind, bind_some, hremoteSum, bind_eq_bind,
          bind_some, ← xorBits_flatten hlengths,
          h.xorFrame_eq hgadget hgadget' hwidth hdecoded hdecoded' hinputsLength hremoteLength]
        rfl
      | false =>
        rw [cutEquation_of_not_included hincluded, hgadget, map_some] at hvalue
        rw [cutEquation_of_not_included hincluded, hgadget', map_some] at hvalue'
        obtain rfl := some_inj.mp hvalue
        obtain rfl := some_inj.mp hvalue'
        have hzero : other.zeroFrame = gadget.zeroFrame := eq_of_base_eq (fun _ => rfl) hsame
        rw [if_neg (by simp), hzero, xorFrame, zeroFrame, xorBits_replicate, xorBits_replicate]
  exact hrank _ gid frame frame' (Nat.lt_succ_self _) hframe hframe'

end Difference

end PauliFrameTracker

end QdkEc
