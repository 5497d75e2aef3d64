import QdkEc.DeqRuntime.FrameConstruction

/-!
# Runs of the Pauli frame tracker

This module follows the tracker through any sequence of calls.  After every call the
frames are the one solution of the frame equations with the corrections that were
loaded last, and a gadget whose correction is loaded once is returned once.  The
updates of a repeated load are the gadgets whose readouts changed exactly when no
residual changes alone and no frame is replaced on the way that has to come back.
-/

namespace QdkEc

open Option List PauliFrameGadget

/-- A call of the tracker. -/
inductive TrackerCall
  | addGadget
      (gid : ℕ)
      (gadgetType : GadgetType)
      (gadgetModifier : Option GadgetModifier)
      (portTypes : ℕ → Option ℕ)
      (connectors : List Connector)
  | loadRaw
      (gid : ℕ)
      (rawReadouts rawMeasurements : List Bool)
  | loadCorrection
      (gid : ℕ)
      (residual readoutFlips : List Bool)

/-- The correction that was loaded last for a gadget. -/
def lastLoaded : List TrackerCall → ℕ → Option PauliFrame
  | [], _ => none
  | .loadCorrection gid residual readoutFlips :: calls, u =>
    (lastLoaded calls u).or (if u = gid then some ⟨readoutFlips, residual⟩ else none)
  | _ :: calls, u => lastLoaded calls u

/-- The gadgets whose corrections are loaded, call by call. -/
def correctedGids : List TrackerCall → List ℕ
  | [] => []
  | .loadCorrection gid _ _ :: calls => gid :: correctedGids calls
  | _ :: calls => correctedGids calls

/-- The gadget without its frame and its correction. -/
def PauliFrameGadget.base (gadget : PauliFrameGadget) : PauliFrameGadget :=
  { gadget with frame := none, decoded := none }

namespace PauliFrameTracker

variable (tracker : PauliFrameTracker)

/-- One call, with the updates that it returns. -/
def step : TrackerCall → Option (PauliFrameTracker × PauliFrameUpdates)
  | .addGadget gid gadgetType gadgetModifier portTypes connectors =>
    (tracker.addGadget gid gadgetType gadgetModifier portTypes connectors).map (·, ∅)
  | .loadRaw gid rawReadouts rawMeasurements =>
    (tracker.loadRaw gid rawReadouts rawMeasurements).map (·, ∅)
  | .loadCorrection gid residual readoutFlips => tracker.loadCorrection gid residual readoutFlips

/-- A sequence of calls, with the updates of each. -/
def run :
    PauliFrameTracker → List TrackerCall → Option (PauliFrameTracker × List PauliFrameUpdates)
  | tracker, [] => some (tracker, [])
  | tracker, call :: calls => do
      let next ← tracker.step call
      let rest ← next.1.run calls
      some (rest.1, next.2 :: rest.2)

/-- A property of every call of a sequence and of the tracker that it is called on. -/
def EveryStep (P : PauliFrameTracker → TrackerCall → Prop) :
    PauliFrameTracker → List TrackerCall → Prop
  | _, [] => True
  | tracker, call :: calls =>
    P tracker call ∧ ∀ next, tracker.step call = some next → next.1.EveryStep P calls

/-- The correction that the tracker stores for a gadget. -/
def decodedOf (gid : ℕ) : Option PauliFrame :=
  (tracker.gadgets.lookup gid).bind PauliFrameGadget.decoded

/-- The readouts of the frame of a gadget. -/
def readoutsOf (gid : ℕ) : Option (List Bool) :=
  (tracker.frames gid).map PauliFrame.readouts

/-- A gadget is an ancestor of itself and of the gadgets that read, through a port or remotely, what
its descendants compute. -/
def Ancestor : ℕ → ℕ → Prop :=
  Relation.ReflTransGen fun u v =>
    ∃ gadget, tracker.gadgets.lookup v = some gadget ∧ u ∈ gadget.parents

/-- A call that keeps to the shapes: a gadget is added after the gadgets on which it depends, raw
data is loaded once, and a correction is loaded after the raw data. -/
def Admits : TrackerCall → Prop
  | .addGadget gid gadgetType gadgetModifier portTypes connectors =>
    gid ∉ tracker.gadgets ∧ ∃ gadget,
      buildGadget gadgetType gadgetModifier portTypes connectors = some gadget ∧
        tracker.Fits gadget
  | .loadRaw gid rawReadouts rawMeasurements =>
    ∃ gadget, tracker.gadgets.lookup gid = some gadget ∧ gadget.rawReadouts = none ∧
      rawReadouts.length = gadget.numReadouts ∧ rawMeasurements.length = gadget.numMeasurements
  | .loadCorrection gid residual readoutFlips =>
    ∃ gadget, tracker.gadgets.lookup gid = some gadget ∧ gadget.rawReadouts.isSome ∧
      readoutFlips.length = gadget.numReadouts ∧
        residual.length = gadget.numOutputObservables

/-- Store a correction without computing frames. -/
def storeCorrection (gid : ℕ) (residual readoutFlips : List Bool) : Option PauliFrameTracker :=
  tracker.modify gid fun gadget => do
    guard gadget.rawReadouts.isSome
    some { gadget with decoded := some ⟨readoutFlips, residual⟩ }

/-- The updates of a call are the gadgets whose readouts it changed. -/
def ReturnsChanged (call : TrackerCall) : Prop :=
  ∀ next, tracker.step call = some next → ∀ v,
    next.2.lookup v = if next.1.readoutsOf v = tracker.readoutsOf v then none
      else next.1.readoutsOf v

/-- A repeated load changes no frame but together with its readouts, and the spread of its change
replaces no frame that has to come back. -/
def ShowsChanges : TrackerCall → Prop
  | .loadCorrection gid residual readoutFlips =>
    (tracker.decodedOf gid).isSome → ∀ loaded,
      tracker.storeCorrection gid residual readoutFlips = some loaded →
        (∀ F, loaded.network.Solves F → ∀ v, F v ≠ tracker.frames v →
          (F v).map PauliFrame.readouts ≠ tracker.readoutsOf v) ∧
        ∀ touched F, loaded.network.Spreads tracker.frames [gid] touched F →
          ∀ v ∈ touched, F v ≠ tracker.frames v
  | _ => True

variable {tracker}
variable {order : List ℕ}

theorem equation_insert_of_ne {gid : ℕ} {gadget gadget' : PauliFrameGadget}
    (hgadget : tracker.gadgets.lookup gid = some gadget) (hsame : gadget'.wiring = gadget.wiring)
    (F : ℕ → Option PauliFrame) {v : ℕ} (hv : v ≠ gid) :
    equation ⟨tracker.gadgets.insert gid gadget'⟩ F v = tracker.equation F v := by
  rw [equation, equation, AList.lookup_insert_ne hv,
    (sameWiring_insert hgadget hsame).inputSlice_eq]

theorem frames_insert_of_frame_eq {gid : ℕ} {gadget gadget' : PauliFrameGadget}
    (hgadget : tracker.gadgets.lookup gid = some gadget) (hframe : gadget'.frame = gadget.frame) :
    frames ⟨tracker.gadgets.insert gid gadget'⟩ = tracker.frames := by
  have hstored : tracker.frames gid = gadget'.frame := by rw [frames, hgadget, bind_some, hframe]
  rw [frames_insert, ← hstored, Function.update_eq_self]

theorem decodedOf_insert (gid : ℕ) (gadget : PauliFrameGadget) :
    decodedOf ⟨tracker.gadgets.insert gid gadget⟩ =
      Function.update tracker.decodedOf gid gadget.decoded := by
  funext u
  change ((tracker.gadgets.insert gid gadget).lookup u).bind _ = _
  rw [lookup_insert_eq]
  rcases eq_or_ne u gid with rfl | hu
  · rw [if_pos rfl, Function.update_self, bind_some]
  · rw [if_neg hu, Function.update_of_ne hu, decodedOf]

theorem WellFormed.exists_loadRaw_eq (h : tracker.WellFormed order)
    (hsolves : tracker.network.Solves tracker.frames) {gid : ℕ}
    {rawReadouts rawMeasurements : List Bool}
    (hadmits : tracker.Admits (.loadRaw gid rawReadouts rawMeasurements)) :
    ∃ tracker', tracker.loadRaw gid rawReadouts rawMeasurements = some tracker' ∧
      tracker'.WellFormed order ∧ tracker'.frames = tracker.frames ∧
        tracker'.network.Solves tracker'.frames ∧ tracker'.decodedOf = tracker.decodedOf := by
  obtain ⟨gadget, hgadget, hraw, hreadouts, hmeasurements⟩ := hadmits
  have hshaped := h.shaped hgadget
  have hnone : gadget.rawMeasurements = none := by
    have hiff := hshaped.raw_iff
    rw [hraw] at hiff
    exact isSome_eq_false_iff.mp hiff.symm |> isNone_iff_eq_none.mp
  have hdecoded : gadget.decoded = none := by
    cases hd : gadget.decoded with
    | none => rfl
    | some d =>
      have hsome := (hshaped.decoded d hd).1
      rw [hraw] at hsome
      cases hsome
  let gadget' : PauliFrameGadget :=
    { gadget with rawReadouts := some rawReadouts, rawMeasurements := some rawMeasurements }
  have hsame : gadget'.wiring = gadget.wiring := rfl
  have hframes : frames ⟨tracker.gadgets.insert gid gadget'⟩ = tracker.frames :=
    frames_insert_of_frame_eq hgadget rfl
  refine ⟨⟨tracker.gadgets.insert gid gadget'⟩, ?_, h.insert hgadget hsame ?_, hframes, ?_, ?_⟩
  · rw [loadRaw, modify, hgadget]
    simp only [bind_eq_bind, bind_some, (guard_eq_some' ()).mpr hraw,
      (guard_eq_some' ()).mpr hnone, (guard_eq_some' ()).mpr hreadouts.symm,
      (guard_eq_some' ()).mpr hmeasurements.symm]
    rfl
  · refine { hshaped with
      raw := fun r hr => ?_, measurements := fun r hr => ?_, raw_iff := rfl,
      decoded := fun d hd => ?_ }
    · obtain rfl := some_inj.mp hr
      exact hreadouts
    · obtain rfl := some_inj.mp hr
      exact hmeasurements
    · exact absurd (hdecoded.symm.trans hd) (by simp)
  · intro v
    rw [hframes]
    rcases eq_or_ne v gid with rfl | hv
    · have hold := hsolves v
      change equation _ _ _ = _ at hold
      change equation _ _ _ = _
      rw [equation, hgadget, bind_eq_bind, bind_some, hdecoded] at hold
      rw [equation, AList.lookup_insert, bind_eq_bind, bind_some]
      change (gadget.decoded.bind _) = _
      rw [hdecoded]
      exact hold
    · exact (equation_insert_of_ne hgadget hsame _ hv).trans (hsolves v)
  · have hstored : tracker.decodedOf gid = gadget.decoded := by rw [decodedOf, hgadget, bind_some]
    rw [decodedOf_insert]
    change Function.update tracker.decodedOf gid gadget.decoded = _
    rw [← hstored, Function.update_eq_self]

theorem SameData.decodedOf_eq {tracker' : PauliFrameTracker} (hdata : SameData tracker tracker') :
    tracker'.decodedOf = tracker.decodedOf := by
  have hfactor : ∀ o : Option PauliFrameGadget, o.bind decoded =
      (o.map data).bind decoded := by
    rintro (_ | gadget) <;> rfl
  funext u
  rw [decodedOf, hfactor, hdata u, ← hfactor, decodedOf]

/-- What a load of a correction does: the correction is stored, and the change spreads from its
gadget to the solution of the frame equations. -/
structure Loads (order : List ℕ) (tracker : PauliFrameTracker) (gid : ℕ)
    (loaded : PauliFrameTracker) (touched : List ℕ) (stop : PauliFrameTracker × PauliFrameUpdates) :
    Prop where
  ordered : loaded.network.Ordered order.idxOf order.length
  settled : ∀ v, v ≠ gid → loaded.network.Settled tracker.frames v
  spreads : loaded.network.Spreads tracker.frames [gid] touched stop.1.frames
  solves : loaded.network.Solves stop.1.frames
  updates : ∀ v, stop.2.lookup v = if v ∈ touched then stop.1.readoutsOf v else none
  wellFormed : stop.1.WellFormed order
  network : stop.1.network = loaded.network
  base : ∀ u, (stop.1.gadgets.lookup u).map PauliFrameGadget.base =
    (tracker.gadgets.lookup u).map PauliFrameGadget.base

theorem WellFormed.exists_loadCorrection_eq (h : tracker.WellFormed order)
    (hsolves : tracker.network.Solves tracker.frames) {gid : ℕ} {residual readoutFlips : List Bool}
    (hadmits : tracker.Admits (.loadCorrection gid residual readoutFlips)) :
    ∃ loaded touched stop, tracker.storeCorrection gid residual readoutFlips = some loaded ∧
      tracker.loadCorrection gid residual readoutFlips = some stop ∧
        Loads order tracker gid loaded touched stop ∧ stop.1.decodedOf =
            Function.update tracker.decodedOf gid (some ⟨readoutFlips, residual⟩) := by
  obtain ⟨gadget, hgadget, hraw, hreadouts, hresidual⟩ := hadmits
  have hshaped := h.shaped hgadget
  let gadget' : PauliFrameGadget :=
    { gadget with decoded := some ⟨readoutFlips, residual⟩ }
  have hsame : gadget'.wiring = gadget.wiring := rfl
  let loaded : PauliFrameTracker := ⟨tracker.gadgets.insert gid gadget'⟩
  have hstore : tracker.storeCorrection gid residual readoutFlips = some loaded := by
    rw [storeCorrection, modify, hgadget]
    simp only [bind_eq_bind, bind_some, (guard_eq_some' ()).mpr hraw]
    rfl
  have hloaded : loaded.WellFormed order := by
    refine h.insert hgadget hsame { hshaped with decoded := fun d hd => ?_ }
    obtain rfl := some_inj.mp hd
    exact ⟨hraw, hreadouts, hresidual⟩
  have hframes : loaded.frames = tracker.frames := frames_insert_of_frame_eq hgadget rfl
  have hmem : gid ∈ order :=
    h.mem_order.mpr (AList.lookup_isSome.mp (isSome_iff_exists.mpr ⟨gadget, hgadget⟩))
  have hdepth : order.length - order.idxOf gid ≤ loaded.gadgets.keys.length := by
    rw [hloaded.length]
    exact Nat.sub_le _ _
  have hpropagate : ∃ touched stop,
      propagateFrom loaded.gadgets.keys.length (loaded, ∅) gid = some stop ∧
        SpreadsTo order (loaded, ∅) [gid] touched stop :=
    exists_propagateFrom_eq _ hloaded hmem hdepth
  obtain ⟨touched, stop, hstop, hspreads⟩ := hpropagate
  have hsettled : ∀ v, v ≠ gid → loaded.network.Settled tracker.frames v :=
    fun v hv => (equation_insert_of_ne hgadget hsame _ hv).trans (hsolves v)
  have hgrounded : loaded.network.Grounded tracker.frames := by
    intro v hv
    rcases eq_or_ne v gid with rfl | hne
    · rw [← hsolves v] at hv
      have hbefore := (h.ordered.isSome_value.mp hv).2
      rw [← (sameWiring_insert hgadget hsame).dependents_eq] at hbefore
      exact hloaded.ordered.isSome_value.mpr ⟨⟨gadget', AList.lookup_insert _, rfl⟩, hbefore⟩
    · rw [hsettled v hne]
      exact hv
  have hspread : loaded.network.Spreads tracker.frames [gid] touched stop.1.frames :=
    hframes ▸ hspreads.spreads
  refine ⟨loaded, touched, stop, hstore, ?_, ?_, ?_⟩
  · rw [loadCorrection]
    change (tracker.storeCorrection gid residual readoutFlips).bind _ = _
    rw [hstore]
    exact hstop
  · refine {
      ordered := hloaded.ordered
      settled := hsettled
      spreads := hspread
      solves := hloaded.ordered.solves_of_spreads hspread hgrounded fun v hv =>
        hsettled v (by simpa using hv)
      updates := fun v => hspreads.updates v
      wellFormed := hspreads.wellFormed
      network := hspreads.data.network_eq
      base := fun u => ?_ }
    have hfactor : ∀ o : Option PauliFrameGadget, o.map base =
        (o.map data).map base := by
      rintro (_ | gadget) <;> rfl
    rw [hfactor, hspreads.data u, ← hfactor]
    change ((tracker.gadgets.insert gid gadget').lookup u).map _ = _
    rw [lookup_insert_eq]
    split_ifs with hu
    · rw [hu, hgadget]
      rfl
    · rfl
  · rw [hspreads.data.decodedOf_eq]
    exact decodedOf_insert gid gadget'

section Loads

variable {gid : ℕ} {loaded : PauliFrameTracker} {touched : List ℕ}
variable {stop : PauliFrameTracker × PauliFrameUpdates}
variable (hload : Loads order tracker gid loaded touched stop)

include hload

theorem Loads.frames_of_first (hnone : tracker.frames gid = none) {v : ℕ} {frame : PauliFrame}
    (hframe : tracker.frames v = some frame) : stop.1.frames v = some frame := by
  refine hload.ordered.le_solution hload.solves (fun u hu => hload.settled u ?_) hframe
  rintro rfl
  rw [hnone] at hu
  cases hu

theorem Loads.lookup_of_first (hnone : tracker.frames gid = none) (v : ℕ) :
    (tracker.readoutsOf v).toList ++ (stop.2.lookup v).toList = (stop.1.readoutsOf v).toList := by
  have hfresh := (hload.ordered.nodup_of_spreads hload.spreads hload.solves
    fun u a ha => hload.frames_of_first hnone ha).2
  rw [hload.updates]
  split_ifs with hv
  · rw [readoutsOf, hfresh v hv]
    rfl
  · rw [readoutsOf, readoutsOf, hload.spreads.eq_of_not_mem hv]
    simp

theorem Loads.updates_eq_iff :
    (∀ v, stop.2.lookup v = if stop.1.readoutsOf v = tracker.readoutsOf v then none
      else stop.1.readoutsOf v) ↔ ∀ v ∈ touched, stop.1.readoutsOf v ≠ tracker.readoutsOf v := by
  constructor
  · intro hupdates v hv heq
    have hsome : (stop.1.readoutsOf v).isSome := by
      rw [readoutsOf, isSome_map]
      exact hload.spreads.isSome_of_mem hv
    have hlookup := hupdates v
    rw [if_pos heq, hload.updates, if_pos hv] at hlookup
    rw [hlookup] at hsome
    cases hsome
  · intro htouched v
    rw [hload.updates]
    by_cases hv : v ∈ touched
    · rw [if_pos hv, if_neg (htouched v hv)]
    · have hsame : stop.1.readoutsOf v = tracker.readoutsOf v := by
        rw [readoutsOf, readoutsOf, hload.spreads.eq_of_not_mem hv]
      rw [if_neg hv, if_pos hsame]

theorem Loads.readoutsOf_ne_of_first (hnone : tracker.frames gid = none) {v : ℕ}
    (hv : v ∈ touched) : stop.1.readoutsOf v ≠ tracker.readoutsOf v := by
  have hfresh := (hload.ordered.nodup_of_spreads hload.spreads hload.solves
    fun u a ha => hload.frames_of_first hnone ha).2
  obtain ⟨frame, hframe⟩ := isSome_iff_exists.mp (hload.spreads.isSome_of_mem hv)
  rw [readoutsOf, readoutsOf, hfresh v hv, hframe]
  exact some_ne_none _

theorem Loads.updates_eq_iff_shows :
    (∀ v, stop.2.lookup v = if stop.1.readoutsOf v = tracker.readoutsOf v then none
      else stop.1.readoutsOf v) ↔ (∀ F, loaded.network.Solves F → ∀ v, F v ≠ tracker.frames v →
        (F v).map PauliFrame.readouts ≠ tracker.readoutsOf v) ∧
      ∀ touched F, loaded.network.Spreads tracker.frames [gid] touched F →
        ∀ v ∈ touched, F v ≠ tracker.frames v := by
  rw [hload.updates_eq_iff]
  constructor
  · intro htouched
    constructor
    · intro F hF v hv
      obtain rfl := hload.ordered.solves_unique hF hload.solves
      refine htouched v ?_
      by_contra hnot
      exact hv (hload.spreads.eq_of_not_mem hnot)
    · intro touched' F hspreads v hv heq
      obtain ⟨rfl, rfl⟩ := hspreads.unique hload.spreads
      exact htouched v hv (congrArg (Option.map PauliFrame.readouts) heq)
  · rintro ⟨hshows, hback⟩ v hv
    exact hshows _ hload.solves v (hback _ _ hload.spreads v hv)

end Loads

theorem frames_eq_none_of_decodedOf (hsolves : tracker.network.Solves tracker.frames) {gid : ℕ}
    (hnone : tracker.decodedOf gid = none) : tracker.frames gid = none := by
  rw [← hsolves gid]
  change tracker.equation tracker.frames gid = none
  rw [equation]
  cases hgadget : tracker.gadgets.lookup gid with
  | none => rfl
  | some gadget =>
    rw [decodedOf, hgadget, bind_some] at hnone
    rw [bind_eq_bind, bind_some, hnone]
    rfl

/-- What one admitted call does. -/
structure Steps (tracker : PauliFrameTracker) (call : TrackerCall)
    (next : PauliFrameTracker × PauliFrameUpdates) :
    Prop where
  step : tracker.step call = some next
  wellFormed : ∃ order, next.1.WellFormed order
  solves : next.1.network.Solves next.1.frames
  decodedOf : ∀ u, next.1.decodedOf u = (lastLoaded [call] u).or (tracker.decodedOf u)
  shows : tracker.ReturnsChanged call ↔ tracker.ShowsChanges call
  first : (∀ gid ∈ correctedGids [call], tracker.decodedOf gid = none) → ∀ v,
    (tracker.readoutsOf v).toList ++ (next.2.lookup v).toList = (next.1.readoutsOf v).toList

variable {call : TrackerCall}

theorem returnsChanged_of_frames_eq {next : PauliFrameTracker}
    (hstep : tracker.step call = some (next, ∅)) (hframes : next.frames = tracker.frames) :
    tracker.ReturnsChanged call := by
  intro next' hnext' v
  obtain rfl := some_inj.mp (hstep.symm.trans hnext')
  have hsame : next.readoutsOf v = tracker.readoutsOf v := by rw [readoutsOf, readoutsOf, hframes]
  rw [if_pos hsame]
  rfl

/-- An admitted call does not panic and keeps the frames a solution of the frame equations. -/
theorem WellFormed.exists_steps (h : tracker.WellFormed order)
    (hsolves : tracker.network.Solves tracker.frames) (hadmits : tracker.Admits call) :
    ∃ next, tracker.Steps call next := by
  cases call with
  | addGadget gid gadgetType gadgetModifier portTypes connectors =>
    obtain ⟨hgid, gadget, hbuild, hfits⟩ := hadmits
    have hbuilt := built_of_buildGadget_eq hbuild
    obtain ⟨tracker', hadd, hattached⟩ := hfits.exists_addGadget_eq hgid hbuild
    have hframes := hattached.frames_eq hgid hbuilt
    have hstep : tracker.step
        (.addGadget gid gadgetType gadgetModifier portTypes connectors) = some (tracker', ∅) := by
      rw [step, hadd, map_some]
    refine ⟨(tracker', ∅), {
        step := hstep
        wellFormed := ⟨_, hattached.wellFormed h hgid hbuilt hfits⟩
        solves := hattached.solves h hgid hbuilt hsolves
        decodedOf := fun u => ?_
        shows := ⟨fun _ => trivial, fun _ => returnsChanged_of_frames_eq hstep hframes⟩
        first := fun _ v => ?_ }⟩
    · change (tracker'.gadgets.lookup u).bind _ = _
      rw [hattached.core.bind_eq (fun _ => rfl) u]
      change decodedOf _ u = tracker.decodedOf u
      have hnone : tracker.decodedOf gid = gadget.decoded := by
        rw [decodedOf, AList.lookup_eq_none.mpr hgid, bind_none, hbuilt.decoded]
      rw [decodedOf_insert, ← hnone, Function.update_eq_self]
    · change _ ++ [] = _
      rw [append_nil, readoutsOf, readoutsOf, hframes]
  | loadRaw gid rawReadouts rawMeasurements =>
    obtain ⟨tracker', hload, hwell, hframes, hsolves', hdecoded⟩ :=
      h.exists_loadRaw_eq hsolves hadmits
    have hstep : tracker.step (.loadRaw gid rawReadouts rawMeasurements) = some (tracker', ∅) := by
      rw [step, hload, map_some]
    refine ⟨(tracker', ∅), {
        step := hstep
        wellFormed := ⟨order, hwell⟩
        solves := hsolves'
        decodedOf := fun u => congrFun hdecoded u
        shows := ⟨fun _ => trivial, fun _ => returnsChanged_of_frames_eq hstep hframes⟩
        first := fun _ v => ?_ }⟩
    change _ ++ [] = _
    rw [append_nil, readoutsOf, readoutsOf, hframes]
  | loadCorrection gid residual readoutFlips =>
    obtain ⟨loaded, touched, stop, hstore, hload, hloads, hdecoded⟩ :=
      h.exists_loadCorrection_eq hsolves hadmits
    refine ⟨stop, {
        step := hload
        wellFormed := ⟨order, hloads.wellFormed⟩
        solves := hloads.network ▸ hloads.solves
        decodedOf := fun u => ?_
        shows := ?_
        first := fun hfirst v => hloads.lookup_of_first
          (frames_eq_none_of_decodedOf hsolves (hfirst gid (mem_singleton_self gid))) v }⟩
    · rw [hdecoded]
      change _ = ((none : Option PauliFrame).or (if u = gid then _ else none)).or _
      rcases eq_or_ne u gid with rfl | hu
      · rw [Function.update_self, if_pos rfl]
        rfl
      · rw [Function.update_of_ne hu, if_neg hu]
        rfl
    · have hreturns : tracker.ReturnsChanged (.loadCorrection gid residual readoutFlips) ↔
          ∀ v, stop.2.lookup v = if stop.1.readoutsOf v = tracker.readoutsOf v then none
            else stop.1.readoutsOf v := by
        refine ⟨fun hall => hall stop hload, fun hall next hnext => ?_⟩
        obtain rfl := some_inj.mp (hload.symm.trans hnext)
        exact hall
      rw [hreturns]
      constructor
      · intro hall _ loaded' hloaded'
        obtain rfl := some_inj.mp (hstore.symm.trans hloaded')
        exact hloads.updates_eq_iff_shows.mp hall
      · intro hshows
        cases hfirst : tracker.decodedOf gid with
        | none =>
          have hnone := frames_eq_none_of_decodedOf hsolves hfirst
          exact hloads.updates_eq_iff.mpr fun v hv => hloads.readoutsOf_ne_of_first hnone hv
        | some decoded =>
          refine hloads.updates_eq_iff_shows.mpr (hshows ?_ loaded hstore)
          rw [hfirst]
          rfl

theorem lastLoaded_cons (call : TrackerCall) (calls : List TrackerCall) (u : ℕ) :
    lastLoaded (call :: calls) u = (lastLoaded calls u).or (lastLoaded [call] u) := by
  cases call <;> simp [lastLoaded]

theorem correctedGids_cons (call : TrackerCall) (calls : List TrackerCall) :
    correctedGids (call :: calls) = correctedGids [call] ++ correctedGids calls := by
  cases call <;> rfl

theorem lastLoaded_eq_none {u : ℕ} (hu : u ∉ correctedGids [call]) :
    lastLoaded [call] u = none := by
  cases call with
  | addGadget gid gadgetType gadgetModifier portTypes connectors => rfl
  | loadRaw gid rawReadouts rawMeasurements => rfl
  | loadCorrection gid residual readoutFlips =>
    have hne : u ≠ gid := fun heq => hu (mem_singleton.mpr heq)
    simp [lastLoaded, hne]

/-- What a sequence of admitted calls does. -/
structure Runs (tracker : PauliFrameTracker) (calls : List TrackerCall)
    (stop : PauliFrameTracker × List PauliFrameUpdates) :
    Prop where
  run : tracker.run calls = some stop
  wellFormed : ∃ order, stop.1.WellFormed order
  solves : stop.1.network.Solves stop.1.frames
  decodedOf : ∀ u, stop.1.decodedOf u = (lastLoaded calls u).or (tracker.decodedOf u)
  shows : tracker.EveryStep ReturnsChanged calls ↔ tracker.EveryStep ShowsChanges calls
  first : (correctedGids calls).Nodup →
    (∀ gid ∈ correctedGids calls, tracker.decodedOf gid = none) → ∀ v,
      (tracker.readoutsOf v).toList ++ stop.2.filterMap (AList.lookup v) =
        (stop.1.readoutsOf v).toList

/-- A sequence of admitted calls does not panic and ends in the solution of the frame
equations. -/
theorem WellFormed.exists_runs {calls : List TrackerCall} (h : tracker.WellFormed order)
    (hsolves : tracker.network.Solves tracker.frames) (hadmits : tracker.EveryStep Admits calls) :
    ∃ stop, tracker.Runs calls stop := by
  induction calls generalizing tracker order with
  | nil =>
    refine ⟨(tracker, []),
      { run := rfl, wellFormed := ⟨order, h⟩, solves := hsolves, decodedOf := fun _ => rfl,
        shows := Iff.rfl, first := fun _ _ v => append_nil _ }⟩
  | cons call calls ih =>
    obtain ⟨next, hnext⟩ := h.exists_steps hsolves hadmits.1
    obtain ⟨order', hwell⟩ := hnext.wellFormed
    obtain ⟨stop, hstop⟩ := ih hwell hnext.solves (hadmits.2 next hnext.step)
    have hafter : ∀ {P : PauliFrameTracker → TrackerCall → Prop},
        (∀ next', tracker.step call = some next' → next'.1.EveryStep P calls) ↔
          next.1.EveryStep P calls := by
      intro P
      refine ⟨fun hall => hall next hnext.step, fun hrest next' hnext' => ?_⟩
      obtain rfl := some_inj.mp (hnext.step.symm.trans hnext')
      exact hrest
    refine ⟨(stop.1, next.2 :: stop.2), {
        run := ?_
        wellFormed := hstop.wellFormed
        solves := hstop.solves
        decodedOf := fun u => ?_
        shows := and_congr hnext.shows (hafter.trans (hstop.shows.trans hafter.symm))
        first := fun hnodup hnone v => ?_ }⟩
    · rw [PauliFrameTracker.run, hnext.step, bind_eq_bind, bind_some, hstop.run]
      rfl
    · rw [hstop.decodedOf, hnext.decodedOf, lastLoaded_cons call calls u, Option.or_assoc]
    · rw [correctedGids_cons, nodup_append] at hnodup
      rw [correctedGids_cons] at hnone
      obtain ⟨-, hrest, hdisjoint⟩ := hnodup
      have hnone' : ∀ gid ∈ correctedGids calls, next.1.decodedOf gid = none := by
        intro gid hgid
        have hfresh : gid ∉ correctedGids [call] := fun hmem => hdisjoint gid hmem gid hgid rfl
        rw [hnext.decodedOf, lastLoaded_eq_none hfresh, hnone gid (mem_append_right _ hgid)]
        rfl
      have hfirst := hnext.first (fun gid hgid => hnone gid (mem_append_left _ hgid)) v
      have hcons : (next.2 :: stop.2).filterMap (AList.lookup v) =
          (next.2.lookup v).toList ++ stop.2.filterMap (AList.lookup v) := by
        rw [filterMap_cons]
        cases next.2.lookup v <;> rfl
      rw [hcons, ← append_assoc, hfirst]
      exact hstop.first hrest hnone' v

theorem wellFormed_new : new.WellFormed [] ∧ new.network.Solves new.frames := by
  refine ⟨⟨nodup_nil, rfl, ?_, ?_, ?_, ?_, ?_, ?_, ?_⟩, fun _ => rfl⟩
  · rintro _ _ ⟨⟩
  · rintro _ _ ⟨⟩
  · rintro _ _ ⟨⟩
  · rintro _ _ ⟨⟩
  · refine ⟨fun hv => absurd hv not_mem_nil, ?_⟩
    rintro ⟨_, ⟨⟩, _⟩
  · exact ⟨fun hv => absurd hv not_mem_nil, fun hv => absurd hv (AList.notMem_empty _)⟩
  · rintro _ _ ⟨⟩

theorem WellFormed.ancestor_eq (h : tracker.WellFormed order) :
    tracker.network.Ancestor = tracker.Ancestor :=
  congrArg Relation.ReflTransGen (funext fun _ => funext fun _ => propext h.mem_dependents)

theorem WellFormed.isSome_frames_iff (h : tracker.WellFormed order)
    (hsolves : tracker.network.Solves tracker.frames) (v : ℕ) :
    (tracker.frames v).isSome ↔ ∀ u, tracker.Ancestor u v → (tracker.decodedOf u).isSome := by
  rw [h.ordered.isSome_iff hsolves, h.ancestor_eq]
  refine forall_congr' fun u => imp_congr_right fun _ => ?_
  rw [decodedOf]
  change (∃ gadget, tracker.gadgets.lookup u = some gadget ∧ _) ↔ _
  cases tracker.gadgets.lookup u <;> simp

/-- A type of gadgets with one output observable and one readout that propagates nothing. -/
def isolatedType : GadgetType where
  inputs := []
  outputs := [0]
  measurementCount := 0
  readoutCount := 1
  correctionPropagation := some ⟨1, 1, [], []⟩
  readoutPropagation := some ⟨1, 1, [], []⟩
  logicalCorrection := some ⟨1, 1, [], []⟩
  physicalCorrection := some ⟨1, 0, [], []⟩

/-- One gadget whose correction is loaded again with another residual. -/
def residualReload : List TrackerCall :=
  [.addGadget 1 isolatedType none (fun _ => some 1) [], .loadRaw 1 [false] [],
    .loadCorrection 1 [false] [false], .loadCorrection 1 [true] [false]]

/-- The gadget of `residualReload`. -/
def isolatedGadget : PauliFrameGadget where
  frame := none
  rawReadouts := none
  rawMeasurements := none
  decoded := none
  correctionPropagation := AlignedBitMatrix.zeros 1 1
  readoutPropagation := AlignedBitMatrix.zeros 1 1
  logicalCorrection := AlignedBitMatrix.zeros 1 1
  physicalCorrection := AlignedBitMatrix.zeros 1 0
  remoteConditionalCorrection := none
  inputs := []
  outputs := [none]
  remoteDependents := []
  outputBias := [0]

def isolatedTracker (gadget : PauliFrameGadget) : PauliFrameTracker where
  gadgets := AList.insert 1 gadget ∅

theorem everyStep_cons {P : PauliFrameTracker → TrackerCall → Prop}
    {calls : List TrackerCall} {next : PauliFrameTracker × PauliFrameUpdates}
    (hcall : P tracker call) (hstep : tracker.step call = some next)
    (hrest : next.1.EveryStep P calls) : tracker.EveryStep P (call :: calls) := by
  refine ⟨hcall, fun next' hnext' => ?_⟩
  obtain rfl := some_inj.mp (hstep.symm.trans hnext')
  exact hrest

/-- The raw data of `residualReload`. -/
def rawGadget : PauliFrameGadget :=
  { isolatedGadget with rawReadouts := some [false], rawMeasurements := some [] }

/-- The gadget of `residualReload` after its first correction. -/
def correctedGadget : PauliFrameGadget :=
  { rawGadget with
    decoded := some ⟨[false], [false]⟩
    frame := some ⟨[false], [false]⟩ }

/-- The updates of one gadget. -/
def isolatedUpdates (readouts : List Bool) : PauliFrameUpdates :=
  AList.insert 1 readouts ∅

theorem residualReload_admitted : new.EveryStep Admits residualReload := by
  have hadd : new.step (.addGadget 1 isolatedType none (fun _ => some 1) []) =
      some (isolatedTracker isolatedGadget, ∅) := rfl
  have hraw : (isolatedTracker isolatedGadget).step (.loadRaw 1 [false] []) =
      some (isolatedTracker rawGadget, ∅) := rfl
  have hfirst : (isolatedTracker rawGadget).step (.loadCorrection 1 [false] [false]) =
      some (isolatedTracker correctedGadget, isolatedUpdates [false]) := rfl
  refine everyStep_cons ?_ hadd (everyStep_cons ?_ hraw (everyStep_cons ?_ hfirst ⟨?_, ?_⟩))
  · refine ⟨by decide, isolatedGadget, rfl, ?_⟩
    exact ⟨nodup_nil, by simp [isolatedGadget], rfl, rfl, by simp [isolatedGadget],
      by simp [isolatedGadget, remoteRefs]⟩
  · exact ⟨isolatedGadget, rfl, rfl, rfl, rfl⟩
  · exact ⟨rawGadget, rfl, rfl, rfl, rfl⟩
  · exact ⟨correctedGadget, rfl, rfl, rfl, rfl⟩
  · exact fun _ _ => trivial

end PauliFrameTracker

end QdkEc
