import QdkEc.DeqRuntime.FrameEquations

/-!
# Propagation of frames

This module shows that the recursion of the tracker is the depth-first spread of the
network of frame equations: it never panics, its depth stays below the number of
gadgets, and it returns the final readouts of the gadgets whose frames it replaced.
-/

namespace QdkEc

open Option PauliFrameGadget List

namespace PauliFrameTracker

variable {tracker : PauliFrameTracker} {order : List ℕ} (h : tracker.WellFormed order)

include h

theorem WellFormed.gatherInputs_eq {peers : List Connector}
    (hpeers : ∀ c ∈ peers, ∃ peer, tracker.gadgets.lookup c.gid = some peer ∧
      c.port < peer.outputs.length) : tracker.gatherInputs peers =
      some ((peers.mapM (tracker.inputSlice tracker.frames)).map List.flatten) := by
  induction peers with
  | nil => rfl
  | cons c peers ih =>
    obtain ⟨peer, hpeer, hport⟩ := hpeers c (by simp)
    have hrest := ih fun c' hc' => hpeers c' (by simp [hc'])
    rw [gatherInputs, hpeer, mapM_cons, inputSlice, hpeer, frames, hpeer]
    simp only [bind_eq_bind, bind_some]
    cases hframe : peer.frame with
    | none => rfl
    | some frame =>
      have hshaped := h.shaped hpeer
      simp only [bind_some]
      rw [hshaped.getResidualSlice_eq (hshaped.frame _ hframe).2 hport, hrest]
      cases peers.mapM (tracker.inputSlice tracker.frames) <;> simp

theorem WellFormed.gatherRemoteReadouts_eq {remoteRefs : List RemoteReadout}
    (hrefs : ∀ r ∈ remoteRefs, ∃ remote, tracker.gadgets.lookup r.gid = some remote ∧
      r.readoutIndex < remote.numReadouts) : tracker.gatherRemoteReadouts remoteRefs =
      some (remoteRefs.mapM (remoteValue tracker.frames)) := by
  induction remoteRefs with
  | nil => rfl
  | cons r remoteRefs ih =>
    obtain ⟨remote, hremote, hindex⟩ := hrefs r (by simp)
    have hrest := ih fun r' hr' => hrefs r' (by simp [hr'])
    rw [gatherRemoteReadouts, hremote, mapM_cons, remoteValue, frames, hremote]
    simp only [bind_eq_bind, bind_some]
    cases hframe : remote.frame with
    | none => rfl
    | some frame =>
      have hlt : r.readoutIndex < frame.readouts.length := by
        rw [((h.shaped hremote).frame _ hframe).1]
        exact hindex
      simp only [bind_some]
      rw [getElem?_eq_getElem hlt, getD_eq_getElem _ _ hlt, hrest]
      cases remoteRefs.mapM (remoteValue tracker.frames) <;> simp

omit h in
theorem length_flatten_inputs {F : ℕ → Option PauliFrame} {connectors : List Connector}
    {slices : List (List Bool)} (hslices : connectors.mapM (tracker.inputSlice F) = some slices) :
    slices.flatten.length = (connectors.map tracker.connectionWidth).sum := by
  have hall := mapM_eq_some_iff.mp hslices
  clear hslices
  induction hall with
  | nil => rfl
  | @cons c slice connectors slices hslice _ ih =>
    obtain ⟨peer, hpeer, hslice⟩ := bind_eq_some_iff.mp hslice
    obtain ⟨frame, -, hslice⟩ := bind_eq_some_iff.mp hslice
    obtain rfl := some_inj.mp hslice
    rw [flatten_cons, length_append, ih, length_portSlice, map_cons,
      sum_cons, connectionWidth, hpeer, elim_some]

variable {gadget : PauliFrameGadget} {gid : ℕ}

theorem WellFormed.currentFrame_eq (hgadget : tracker.gadgets.lookup gid = some gadget) :
    tracker.currentFrame gadget = some (tracker.equation tracker.frames gid) := by
  rw [currentFrame, equation, hgadget]
  simp only [bind_eq_bind, bind_some]
  cases hdecoded : gadget.decoded with
  | none => rfl
  | some decoded =>
    have hshaped := h.shaped hgadget
    rw [h.gatherInputs_eq (h.input hgadget)]
    cases hinputs : gadget.inputs.mapM (tracker.inputSlice tracker.frames) with
    | none => rfl
    | some inputs =>
      have hlength : inputs.flatten.length + 1 = gadget.correctionPropagation.columnCount := by
        rw [length_flatten_inputs hinputs]
        exact h.width hgadget
      have hremoteRefs := h.gatherRemoteReadouts_eq (h.remote hgadget)
      cases hcc : gadget.remoteConditionalCorrection with
      | none =>
        have hnil : gadget.remoteRefs = [] := by rw [PauliFrameGadget.remoteRefs, hcc]
        have hcount : ([] : List Bool).length = gadget.remoteRefs.length := by
          rw [hnil]
          rfl
        have hvec : gadget.remoteConditionalCorrection.isSome →
            (none : Option (List Bool)) = some [] := by
          simp [hcc]
        have hframe := hshaped.computeFrame_eq hdecoded hlength hcount hvec
        simp only [map_some, hframe, bind_some, hnil]
        rfl
      | some pair =>
        obtain ⟨remoteRefs, correctionMatrix⟩ := pair
        have hrefs : gadget.remoteRefs = remoteRefs := by rw [PauliFrameGadget.remoteRefs, hcc]
        rw [hrefs] at hremoteRefs
        simp only [map_some, hremoteRefs, bind_some, hrefs]
        cases hremote : remoteRefs.mapM (remoteValue tracker.frames) with
        | none => rfl
        | some remote =>
          have hcount : remote.length = gadget.remoteRefs.length := by
            rw [hrefs]
            exact (mapM_eq_some_iff.mp hremote).length_eq.symm
          have hvec : gadget.remoteConditionalCorrection.isSome →
              some remote = some remote := fun _ => rfl
          have hframe := hshaped.computeFrame_eq hdecoded hlength hcount hvec
          simp only [hframe, bind_some]

omit h in
theorem lookup_insert_eq (gadgets : GidMap PauliFrameGadget) (gid : ℕ) (gadget : PauliFrameGadget)
    (u : ℕ) :
    (gadgets.insert gid gadget).lookup u = if u = gid then some gadget else gadgets.lookup u := by
  split_ifs with hu
  · rw [hu, AList.lookup_insert]
  · exact AList.lookup_insert_ne hu

/-- The gadgets of two trackers are wired alike. -/
def SameWiring (tracker tracker' : PauliFrameTracker) : Prop :=
  ∀ gid, (tracker'.gadgets.lookup gid).map PauliFrameGadget.wiring =
    (tracker.gadgets.lookup gid).map PauliFrameGadget.wiring

section SameWiring

omit h

variable {tracker' : PauliFrameTracker} (hwiring : SameWiring tracker tracker')

include hwiring

theorem SameWiring.symm : SameWiring tracker' tracker :=
  fun gid => (hwiring gid).symm

theorem SameWiring.exists_lookup {gadget' : PauliFrameGadget}
    (hgadget' : tracker'.gadgets.lookup gid = some gadget') :
    ∃ gadget, tracker.gadgets.lookup gid = some gadget ∧ gadget.wiring = gadget'.wiring := by
  have hsame := hwiring gid
  rw [hgadget', map_some] at hsame
  exact map_eq_some_iff.mp hsame.symm

theorem SameWiring.dependents_eq : tracker'.network.dependents = tracker.network.dependents := by
  have hfactor : ∀ o : Option PauliFrameGadget, o.elim [] dependents =
      (o.map wiring).elim [] dependents := by
    rintro (_ | gadget) <;> rfl
  funext gid
  change (tracker'.gadgets.lookup gid).elim [] _ = (tracker.gadgets.lookup gid).elim [] _
  rw [hfactor, hwiring gid, ← hfactor]

theorem SameWiring.inputSlice_eq : tracker'.inputSlice = tracker.inputSlice := by
  funext F c
  let slice (peer : PauliFrameGadget) : Option (List Bool) := do
    let frame ← F c.gid
    some (peer.portSlice frame.residual c.port)
  have hfactor : ∀ o : Option PauliFrameGadget,
      o.bind slice = (o.map wiring).bind slice := by
    rintro (_ | peer) <;> rfl
  change (tracker'.gadgets.lookup c.gid).bind slice = (tracker.gadgets.lookup c.gid).bind slice
  rw [hfactor, hwiring c.gid, ← hfactor]

theorem SameWiring.connectionWidth_eq : tracker'.connectionWidth = tracker.connectionWidth := by
  have hfactor : ∀ (o : Option PauliFrameGadget) (port : ℕ),
      (o.elim 0 fun peer => peer.portWidth port) =
        (o.map wiring).elim 0 fun peer => peer.portWidth port := by
    rintro (_ | peer) port <;> rfl
  funext c
  rw [connectionWidth, hfactor, hwiring c.gid, ← hfactor, connectionWidth]

end SameWiring

theorem WellFormed.of_sameWiring {tracker' : PauliFrameTracker}
    (hwiring : SameWiring tracker tracker')
    (hlength : tracker'.gadgets.keys.length = tracker.gadgets.keys.length)
    (hshaped : ∀ {gid gadget}, tracker'.gadgets.lookup gid = some gadget → gadget.Shaped) :
    tracker'.WellFormed order where
  nodup := h.nodup
  length := h.length.trans hlength.symm
  shaped := hshaped
  input {gid gadget'} hgadget' c hc := by
    obtain ⟨gadget, hgadget, hsame⟩ := hwiring.exists_lookup hgadget'
    have hinputs : gadget.inputs = gadget'.inputs :=
      eq_of_wiring_eq (fun _ => rfl) hsame
    obtain ⟨peer, hpeer, hport⟩ := h.input hgadget c (hinputs ▸ hc)
    obtain ⟨peer', hpeer', hsame'⟩ := hwiring.symm.exists_lookup hpeer
    have houtputs : peer'.outputs = peer.outputs :=
      eq_of_wiring_eq (fun _ => rfl) hsame'
    exact ⟨peer', hpeer', houtputs ▸ hport⟩
  width {gid gadget'} hgadget' := by
    obtain ⟨gadget, hgadget, hsame⟩ := hwiring.exists_lookup hgadget'
    have hinputs : gadget.inputs = gadget'.inputs :=
      eq_of_wiring_eq (fun _ => rfl) hsame
    have hmatrix : gadget.correctionPropagation = gadget'.correctionPropagation :=
      eq_of_wiring_eq (fun _ => rfl) hsame
    rw [hwiring.connectionWidth_eq, ← hinputs, ← hmatrix]
    exact h.width hgadget
  remote {gid gadget'} hgadget' r hr := by
    obtain ⟨gadget, hgadget, hsame⟩ := hwiring.exists_lookup hgadget'
    have hrefs : gadget.remoteRefs = gadget'.remoteRefs :=
      eq_of_wiring_eq (fun _ => rfl) hsame
    obtain ⟨remote, hremote, hindex⟩ := h.remote hgadget r (hrefs ▸ hr)
    obtain ⟨remote', hremote', hsame'⟩ := hwiring.symm.exists_lookup hremote
    have hcount : remote'.numReadouts = remote.numReadouts :=
      eq_of_wiring_eq (fun _ => rfl) hsame'
    exact ⟨remote', hremote', hcount ▸ hindex⟩
  mem_dependents {u v} := by
    rw [hwiring.dependents_eq, h.mem_dependents]
    constructor
    · rintro ⟨gadget, hgadget, hu⟩
      obtain ⟨gadget', hgadget', hsame⟩ := hwiring.symm.exists_lookup hgadget
      have hparents : gadget'.parents = gadget.parents :=
        eq_of_wiring_eq (fun _ => rfl) hsame
      exact ⟨gadget', hgadget', hparents ▸ hu⟩
    · rintro ⟨gadget', hgadget', hu⟩
      obtain ⟨gadget, hgadget, hsame⟩ := hwiring.exists_lookup hgadget'
      have hparents : gadget.parents = gadget'.parents :=
        eq_of_wiring_eq (fun _ => rfl) hsame
      exact ⟨gadget, hgadget, hparents ▸ hu⟩
  mem_order {gid} := by
    rw [h.mem_order, ← AList.lookup_isSome, ← AList.lookup_isSome, ← isSome_map,
      ← hwiring gid, isSome_map]
  before {gid gadget'} hgadget' u hu := by
    obtain ⟨gadget, hgadget, hsame⟩ := hwiring.exists_lookup hgadget'
    have hparents : gadget.parents = gadget'.parents :=
      eq_of_wiring_eq (fun _ => rfl) hsame
    exact h.before hgadget u (hparents ▸ hu)

omit h in
theorem sameWiring_insert {gadget gadget' : PauliFrameGadget}
    (hgadget : tracker.gadgets.lookup gid = some gadget) (hsame : gadget'.wiring = gadget.wiring) :
    SameWiring tracker ⟨tracker.gadgets.insert gid gadget'⟩ := by
  intro u
  change (((tracker.gadgets.insert gid gadget').lookup u).map _) = _
  rw [lookup_insert_eq]
  split_ifs with hu
  · rw [hu, hgadget, map_some, hsame, map_some]
  · rfl

omit h in
theorem length_keys_insert
    (hgadget : tracker.gadgets.lookup gid = some gadget) (gadget' : PauliFrameGadget) :
    (tracker.gadgets.insert gid gadget').keys.length = tracker.gadgets.keys.length := by
  have hmem : gid ∈ tracker.gadgets.keys :=
    AList.lookup_isSome.mp (isSome_iff_exists.mpr ⟨gadget, hgadget⟩)
  rw [AList.keys_insert, length_cons, length_erase_of_mem hmem]
  have := length_pos_of_mem hmem
  omega

theorem WellFormed.insert {gadget gadget' : PauliFrameGadget}
    (hgadget : tracker.gadgets.lookup gid = some gadget) (hsame : gadget'.wiring = gadget.wiring)
    (hshaped : gadget'.Shaped) :
    (⟨tracker.gadgets.insert gid gadget'⟩ : PauliFrameTracker).WellFormed order := by
  refine h.of_sameWiring (sameWiring_insert hgadget hsame) (length_keys_insert hgadget gadget') ?_
  intro u gadget'' hu
  rw [lookup_insert_eq] at hu
  split_ifs at hu with hgid
  · obtain rfl := some_inj.mp hu
    exact hshaped
  · exact h.shaped hu

/-- The gadgets of two trackers differ in their frames only. -/
def SameData (tracker tracker' : PauliFrameTracker) : Prop :=
  ∀ gid, (tracker'.gadgets.lookup gid).map PauliFrameGadget.data =
    (tracker.gadgets.lookup gid).map PauliFrameGadget.data

section SameData

omit h

variable {tracker' : PauliFrameTracker} (hdata : SameData tracker tracker')

include hdata

theorem SameData.trans {tracker'' : PauliFrameTracker} (hdata' : SameData tracker' tracker'') :
    SameData tracker tracker'' :=
  fun gid => (hdata' gid).trans (hdata gid)

theorem SameData.sameWiring : SameWiring tracker tracker' := by
  have hfactor : ∀ o : Option PauliFrameGadget,
      o.map wiring = (o.map data).map wiring := by
    rintro (_ | gadget) <;> rfl
  intro gid
  rw [hfactor, hdata gid, ← hfactor]

theorem SameData.network_eq : tracker'.network = tracker.network := by
  refine Network.ext hdata.sameWiring.dependents_eq ?_ ?_
  · have hfactor : ∀ o : Option PauliFrameGadget,
        (∃ gadget, o = some gadget ∧ gadget.decoded.isSome) ↔
          ∃ gadget, o.map data = some gadget ∧ gadget.decoded.isSome := by
      rintro (_ | gadget) <;> simp [data]
    funext gid
    change (∃ gadget, tracker'.gadgets.lookup gid = some gadget ∧ _) =
      ∃ gadget, tracker.gadgets.lookup gid = some gadget ∧ _
    rw [hfactor, hdata gid, ← hfactor]
  · funext F gid
    let solved (slice : Connector → Option (List Bool)) (gadget : PauliFrameGadget) :
        Option PauliFrame := do
      let decoded ← gadget.decoded
      let inputs ← gadget.inputs.mapM slice
      let remote ← gadget.remoteRefs.mapM (remoteValue F)
      some (gadget.solvedFrame decoded inputs.flatten remote)
    have hfactor : ∀ (slice : Connector → Option (List Bool)) (o : Option PauliFrameGadget),
        o.bind (solved slice) = (o.map data).bind (solved slice) := by
      rintro slice (_ | gadget) <;> rfl
    change (tracker'.gadgets.lookup gid).bind (solved (tracker'.inputSlice F)) =
      (tracker.gadgets.lookup gid).bind (solved (tracker.inputSlice F))
    rw [hfactor, hdata gid, ← hfactor, hdata.sameWiring.inputSlice_eq]

end SameData

omit h in
theorem frames_insert (gid : ℕ) (gadget : PauliFrameGadget) :
    (⟨tracker.gadgets.insert gid gadget⟩ : PauliFrameTracker).frames =
      Function.update tracker.frames gid gadget.frame := by
  funext u
  change ((tracker.gadgets.insert gid gadget).lookup u).bind _ = _
  rw [lookup_insert_eq]
  rcases eq_or_ne u gid with rfl | hu
  · rw [if_pos rfl, Function.update_self, bind_some]
  · rw [if_neg hu, Function.update_of_ne hu, frames]

omit h in
theorem sameData_setFrame
    (hgadget : tracker.gadgets.lookup gid = some gadget) (frame : PauliFrame) :
    SameData tracker (tracker.setFrame gid gadget frame) := by
  intro u
  change ((tracker.gadgets.insert gid _).lookup u).map _ = _
  rw [lookup_insert_eq]
  split_ifs with hu
  · rw [hu, hgadget]
    rfl
  · rfl

theorem WellFormed.setFrame
    (hgadget : tracker.gadgets.lookup gid = some gadget) {F : ℕ → Option PauliFrame}
    {frame : PauliFrame} (hframe : tracker.equation F gid = some frame) :
    (tracker.setFrame gid gadget frame).WellFormed order ∧
      frame.readouts.length = gadget.numReadouts := by
  rw [equation, hgadget, bind_eq_bind, bind_some] at hframe
  obtain ⟨decoded, -, hframe⟩ := bind_eq_some_iff.mp hframe
  obtain ⟨inputs, -, hframe⟩ := bind_eq_some_iff.mp hframe
  obtain ⟨remote, -, hframe⟩ := bind_eq_some_iff.mp hframe
  obtain rfl := some_inj.mp hframe
  have hshaped := h.shaped hgadget
  refine ⟨h.insert hgadget rfl ?_, length_solvedReadouts _ _⟩
  refine { hshaped with frame := fun f hf => ?_ }
  obtain rfl := some_inj.mp hf
  exact ⟨length_solvedReadouts _ _, length_solvedResidual _ _ _⟩

/-- The recursion has spread from pending gadgets and returned the readouts of those it touched. -/
structure SpreadsTo (order : List ℕ) (start : PauliFrameTracker × PauliFrameUpdates)
    (pending touched : List ℕ) (stop : PauliFrameTracker × PauliFrameUpdates) :
    Prop where
  wellFormed : stop.1.WellFormed order
  data : SameData start.1 stop.1
  spreads : start.1.network.Spreads start.1.frames pending touched stop.1.frames
  updates : ∀ gid, stop.2.lookup gid =
    if gid ∈ touched then (stop.1.frames gid).map PauliFrame.readouts else start.2.lookup gid

omit h in
theorem SpreadsTo.append {start middle stop : PauliFrameTracker × PauliFrameUpdates}
    {pending pending' touched touched' : List ℕ}
    (hfirst : SpreadsTo order start pending touched middle)
    (hsecond : SpreadsTo order middle pending' touched' stop) :
    SpreadsTo order start (pending ++ pending') (touched ++ touched') stop where
  wellFormed := hsecond.wellFormed
  data := hfirst.data.trans hsecond.data
  spreads := hfirst.spreads.append (hfirst.data.network_eq ▸ hsecond.spreads)
  updates gid := by
    rw [hsecond.updates gid, hfirst.updates gid]
    by_cases hgid' : gid ∈ touched'
    · simp [hgid']
    · by_cases hgid : gid ∈ touched
      · simp [hgid, hgid', hsecond.spreads.eq_of_not_mem hgid']
      · simp [hgid, hgid']

omit h in
theorem SpreadsTo.change {updates : PauliFrameUpdates}
    (hgadget : tracker.gadgets.lookup gid = some gadget) {frame : PauliFrame}
    (hequation : tracker.equation tracker.frames gid = some frame) (hne : gadget.frame ≠ some frame)
    {touched : List ℕ} {stop : PauliFrameTracker × PauliFrameUpdates} (hrest : SpreadsTo order
      (tracker.setFrame gid gadget frame, updates.insert gid frame.readouts)
      gadget.dependents touched stop) :
    SpreadsTo order (tracker, updates) [gid] (gid :: touched) stop where
  wellFormed := hrest.wellFormed
  data := (sameData_setFrame hgadget frame).trans hrest.data
  spreads := by
    have hstored : tracker.frames gid = gadget.frame := by rw [frames, hgadget, bind_some]
    refine .change hequation (fun heq => hne (hstored.symm.trans heq)) ?_
    have hspreads := hrest.spreads
    rw [(sameData_setFrame hgadget frame).network_eq] at hspreads
    have hframes : (tracker.setFrame gid gadget frame).frames =
        Function.update tracker.frames gid (some frame) := frames_insert gid _
    have hdependents : tracker.network.dependents gid = gadget.dependents := by
      change (tracker.gadgets.lookup gid).elim [] _ = _
      rw [hgadget, elim_some]
    rw [hdependents, append_nil, ← hframes]
    exact hspreads
  updates u := by
    rw [hrest.updates u]
    by_cases hu : u ∈ touched
    · simp [hu]
    · rcases eq_or_ne u gid with rfl | hugid
      · have hframe : stop.1.frames u = some frame := by
          rw [hrest.spreads.eq_of_not_mem hu]
          exact (congrFun (frames_insert u _) u).trans (Function.update_self _ _ _)
        rw [if_neg hu, AList.lookup_insert, if_pos (by simp), hframe]
        rfl
      · rw [if_neg hu, AList.lookup_insert_ne hugid, if_neg (by simp [hugid, hu])]

omit h in
theorem exists_foldlM_eq {visit : PauliFrameTracker × PauliFrameUpdates → ℕ →
      Option (PauliFrameTracker × PauliFrameUpdates)} {l : List ℕ}
    (hvisit : ∀ v ∈ l, ∀ start : PauliFrameTracker × PauliFrameUpdates, start.1.WellFormed order →
        ∃ touched stop, visit start v = some stop ∧ SpreadsTo order start [v] touched stop)
    (start : PauliFrameTracker × PauliFrameUpdates) (hstart : start.1.WellFormed order) :
    ∃ touched stop, l.foldlM visit start = some stop ∧ SpreadsTo order start l touched stop := by
  induction l generalizing start with
  | nil => exact ⟨[], start, rfl, hstart, fun _ => rfl, .done _, fun _ => by simp⟩
  | cons v l ih =>
    obtain ⟨touched, middle, hmiddle, hfirst⟩ := hvisit v (by simp) start hstart
    obtain ⟨touched', stop, hstop, hsecond⟩ :=
      ih (fun w hw => hvisit w (by simp [hw])) middle hfirst.wellFormed
    refine ⟨touched ++ touched', stop, ?_, hfirst.append hsecond⟩
    rw [foldlM_cons, hmiddle]
    exact hstop

omit h in
theorem exists_propagateFrom_eq (depth : ℕ) {start : PauliFrameTracker × PauliFrameUpdates}
    (h : start.1.WellFormed order) (hgid : gid ∈ order)
    (hdepth : order.length - order.idxOf gid ≤ depth) :
    ∃ touched stop, propagateFrom depth start gid = some stop ∧
      SpreadsTo order start [gid] touched stop := by
  induction depth generalizing start gid with
  | zero =>
    have hlt := idxOf_lt_length_of_mem hgid
    omega
  | succ depth ih =>
    obtain ⟨tracker, updates⟩ := start
    obtain ⟨gadget, hgadget⟩ :=
      isSome_iff_exists.mp (AList.lookup_isSome.mpr (h.mem_order.mp hgid))
    rw [propagateFrom, hgadget]
    simp only [bind_eq_bind, bind_some]
    rw [h.currentFrame_eq hgadget, bind_some]
    cases hequation : tracker.equation tracker.frames gid with
    | none => exact ⟨[], _, rfl, h, fun _ => rfl, .keep (.inl hequation) (.done _), fun _ => rfl⟩
    | some frame =>
      simp only
      split_ifs with hsame
      · have hstored : tracker.frames gid = gadget.frame := by rw [frames, hgadget, bind_some]
        refine ⟨[], _, rfl, h, fun _ => rfl, .keep (.inr ?_) (.done _), fun _ => rfl⟩
        exact hequation.trans (hsame.symm.trans hstored.symm)
      · obtain ⟨hnext, hlength⟩ := h.setFrame hgadget hequation
        have hmember : ∀ v ∈ gadget.dependents,
            v ∈ order ∧ order.length - order.idxOf v ≤ depth := by
          intro v hv
          have hv' : v ∈ tracker.network.dependents gid := by
            change v ∈ (tracker.gadgets.lookup gid).elim [] _
            rwa [hgadget]
          have hlt := h.ordered.rank_lt hv'
          have hbound := h.ordered.rank_lt_bound hv'
          exact ⟨idxOf_lt_length_iff.mp hbound, by omega⟩
        have hreadouts : binarBitvecToBitVector frame.readouts gadget.numReadouts =
            frame.readouts := (eq_map_range hlength).symm
        rw [hreadouts]
        obtain ⟨touched, stop, hstop, hrest⟩ := exists_foldlM_eq
          (fun v hv start' hstart' => ih hstart' (hmember v hv).1 (hmember v hv).2)
          (tracker.setFrame gid gadget frame, updates.insert gid frame.readouts) hnext
        exact ⟨gid :: touched, stop, hstop, .change hgadget hequation hsame hrest⟩

end PauliFrameTracker

end QdkEc
