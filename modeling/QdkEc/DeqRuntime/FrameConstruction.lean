import QdkEc.DeqRuntime.FramePropagation
import Mathlib.Data.List.ReduceOption

/-!
# Adding gadgets to the tracker

This module shows that a gadget whose matrices fit and whose connections are free is
added without a panic: the tracker stays well formed, the gadget comes after the
gadgets on which it depends, and the frames still solve the frame equations.
-/

namespace QdkEc

open Option PauliFrameGadget List AList

namespace PauliFrameGadget

variable (gadget : PauliFrameGadget)

/-- The gadget without the gadgets that it notifies. -/
def core : PauliFrameGadget :=
  { gadget with
    outputs := List.replicate gadget.outputs.length none
    remoteDependents := [] }

variable {gadget}

theorem eq_of_core_eq {A : Type} {f : PauliFrameGadget → A}
    (hf : ∀ gadget : PauliFrameGadget, f gadget.core = f gadget) {gadget' : PauliFrameGadget}
    (h : gadget.core = gadget'.core) : f gadget = f gadget' := by
  rw [← hf, h, hf]

theorem length_outputs_core (gadget : PauliFrameGadget) :
    gadget.core.outputs.length = gadget.outputs.length :=
  length_replicate

theorem shaped_core (gadget : PauliFrameGadget) : gadget.core.Shaped = gadget.Shaped := by
  refine propext ⟨fun h => ?_, fun h => ?_⟩
  · exact { h with bias_length := h.bias_length.trans (length_outputs_core gadget) }
  · exact { h with bias_length := h.bias_length.trans (length_outputs_core gadget).symm }

end PauliFrameGadget

namespace PauliFrameTracker

variable {portTypes : ℕ → Option ℕ}

theorem outputBiases_spec {outputs : List ℕ} {biases : List ℕ × ℕ}
    (h : outputBiases portTypes outputs = some biases) :
    biases.1.length = outputs.length ∧ (∀ b ∈ biases.1, b ≤ biases.2) ∧
      biases.1.Pairwise (· ≤ ·) := by
  have hfold : ∀ (ports : List ℕ) (start stop : List ℕ × ℕ),
      ports.foldlM (fun biases port => do
        let observables ← portTypes port
        some (biases.1 ++ [biases.2], biases.2 + observables)) start = some stop →
      (∀ b ∈ start.1, b ≤ start.2) → start.1.Pairwise (· ≤ ·) →
      stop.1.length = start.1.length + ports.length ∧ (∀ b ∈ stop.1, b ≤ stop.2) ∧
        stop.1.Pairwise (· ≤ ·) := by
    intro ports
    induction ports with
    | nil =>
      intro start stop hstop hstart hsorted
      obtain rfl := some_inj.mp hstop
      exact ⟨rfl, hstart, hsorted⟩
    | cons port ports ih =>
      intro start stop hstop hstart hsorted
      rw [foldlM_cons] at hstop
      obtain ⟨next, hnext, hrest⟩ := bind_eq_some_iff.mp hstop
      obtain ⟨observables, -, hnext⟩ := bind_eq_some_iff.mp hnext
      obtain rfl := some_inj.mp hnext
      have hle : ∀ b ∈ start.1 ++ [start.2], b ≤ start.2 + observables := by
        intro b hb
        rcases List.mem_append.mp hb with hold | hnew
        · exact (hstart b hold).trans (Nat.le_add_right _ _)
        · rw [mem_singleton.mp hnew]
          exact Nat.le_add_right _ _
      have hsorted' : (start.1 ++ [start.2]).Pairwise (· ≤ ·) := by
        refine pairwise_append.mpr ⟨hsorted, pairwise_singleton _ _, fun b hb c hc => ?_⟩
        rw [mem_singleton.mp hc]
        exact hstart b hb
      obtain ⟨hlength, hall⟩ := ih _ stop hrest hle hsorted'
      refine ⟨?_, hall⟩
      rw [hlength, length_append, length_singleton, length_cons]
      omega
  obtain ⟨hlength, hall⟩ := hfold outputs ([], 0) biases h (by simp) List.Pairwise.nil
  exact ⟨by simpa using hlength, hall⟩

/-- What the assertions on a new gadget say. -/
structure Built (connectors : List Connector) (gadget : PauliFrameGadget) : Prop where
  frame : gadget.frame = none
  raw : gadget.rawReadouts = none
  measurements : gadget.rawMeasurements = none
  decoded : gadget.decoded = none
  inputs : gadget.inputs = connectors
  reduceOption_outputs : gadget.outputs.reduceOption = []
  remoteDependents : gadget.remoteDependents = []
  bias_length : gadget.outputBias.length = gadget.outputs.length
  bias_le : ∀ b ∈ gadget.outputBias, b ≤ gadget.numOutputObservables
  bias_sorted : gadget.outputBias.Pairwise (· ≤ ·)
  logical_rows : gadget.logicalCorrection.rowCount = gadget.numOutputObservables
  propagation_rows : gadget.readoutPropagation.rowCount = gadget.numReadouts
  propagation_columns : gadget.readoutPropagation.columnCount =
    gadget.correctionPropagation.columnCount

variable {gadget : PauliFrameGadget} {tracker : PauliFrameTracker}

theorem built_of_buildGadget_eq {gadgetType : GadgetType} {gadgetModifier : Option GadgetModifier}
    {connectors : List Connector}
    (h : buildGadget gadgetType gadgetModifier portTypes connectors = some gadget) :
    Built connectors gadget := by
  obtain ⟨-, -, h⟩ := bind_eq_some_iff.mp h
  obtain ⟨biases, hbiases, h⟩ := bind_eq_some_iff.mp h
  obtain ⟨correctionPropagation, -, h⟩ := bind_eq_some_iff.mp h
  obtain ⟨readoutPropagation, -, h⟩ := bind_eq_some_iff.mp h
  obtain ⟨logicalCorrection, -, h⟩ := bind_eq_some_iff.mp h
  obtain ⟨physicalCorrection, -, h⟩ := bind_eq_some_iff.mp h
  obtain ⟨remoteConditionalCorrection, -, h⟩ := bind_eq_some_iff.mp h
  obtain ⟨_, htotal, h⟩ := bind_eq_some_iff.mp h
  obtain ⟨_, hlogical, h⟩ := bind_eq_some_iff.mp h
  obtain ⟨_, hreadouts, h⟩ := bind_eq_some_iff.mp h
  obtain ⟨_, hmeasurements, h⟩ := bind_eq_some_iff.mp h
  obtain ⟨_, hrows, h⟩ := bind_eq_some_iff.mp h
  obtain ⟨_, hcolumns, h⟩ := bind_eq_some_iff.mp h
  obtain rfl := some_inj.mp h
  replace htotal := (guard_eq_some' _).mp htotal
  obtain ⟨hpos, hcolumns⟩ := (guard_eq_some' _).mp hcolumns
  obtain ⟨hlength, hle, hsorted⟩ := outputBiases_spec hbiases
  exact {
    frame := rfl
    raw := rfl
    measurements := rfl
    decoded := rfl
    inputs := rfl
    reduceOption_outputs := reduceOption_replicate_none
    remoteDependents := rfl
    bias_length := hlength.trans length_replicate.symm
    bias_le := fun b hb => (hle b hb).trans_eq htotal
    bias_sorted := hsorted
    logical_rows := (guard_eq_some' _).mp hlogical
    propagation_rows := (guard_eq_some' _).mp hrows
    propagation_columns := hcolumns.trans (Nat.succ_pred hpos) }

/-- The gadgets of two trackers differ in the gadgets that they notify only. -/
def SameCore (tracker tracker' : PauliFrameTracker) : Prop :=
  ∀ u, (tracker'.gadgets.lookup u).map PauliFrameGadget.core =
    (tracker.gadgets.lookup u).map PauliFrameGadget.core

section SameCore

variable {tracker tracker' : PauliFrameTracker} (hcore : SameCore tracker tracker')

include hcore

theorem SameCore.trans {tracker'' : PauliFrameTracker} (hcore' : SameCore tracker' tracker'') :
    SameCore tracker tracker'' :=
  fun u => (hcore' u).trans (hcore u)

theorem SameCore.symm : SameCore tracker' tracker :=
  fun u => (hcore u).symm

theorem SameCore.exists_lookup {u : ℕ} {gadget' : PauliFrameGadget}
    (hgadget' : tracker'.gadgets.lookup u = some gadget') :
    ∃ gadget, tracker.gadgets.lookup u = some gadget ∧ gadget.core = gadget'.core := by
  have hsame := hcore u
  rw [hgadget', map_some] at hsame
  exact map_eq_some_iff.mp hsame.symm

theorem SameCore.mem_iff (u : ℕ) : u ∈ tracker'.gadgets ↔ u ∈ tracker.gadgets := by
  rw [← lookup_isSome, ← lookup_isSome, ← isSome_map, hcore u, isSome_map]

theorem SameCore.bind_eq {A : Type} {f : PauliFrameGadget → Option A}
    (hf : ∀ gadget : PauliFrameGadget, f gadget.core = f gadget) (u : ℕ) :
    (tracker'.gadgets.lookup u).bind f = (tracker.gadgets.lookup u).bind f := by
  have hfactor : ∀ o : Option PauliFrameGadget,
      o.bind f = (o.map core).bind f := by
    rintro (_ | gadget)
    · rfl
    · exact (hf gadget).symm
  rw [hfactor, hcore u, ← hfactor]

theorem SameCore.frames_eq : tracker'.frames = tracker.frames :=
  funext fun u => hcore.bind_eq (fun _ => rfl) u

theorem SameCore.connectionWidth_eq : tracker'.connectionWidth = tracker.connectionWidth := by
  have hfactor : ∀ (o : Option PauliFrameGadget) (port : ℕ),
      (o.elim 0 fun peer => peer.portWidth port) =
        (o.map core).elim 0 fun peer => peer.portWidth port := by
    rintro (_ | peer) port <;> rfl
  funext c
  rw [connectionWidth, hfactor, hcore c.gid, ← hfactor, connectionWidth]

theorem SameCore.equation_eq : tracker'.equation = tracker.equation := by
  have hslice : ∀ F, tracker'.inputSlice F = tracker.inputSlice F := by
    intro F
    funext c
    exact hcore.bind_eq (fun _ => rfl) c.gid
  funext F u
  rw [equation, hslice F]
  exact hcore.bind_eq (fun _ => rfl) u

end SameCore

/-- A gadget was attached to parents: they notify it, and nothing else changed. -/
structure Attached (gid : ℕ) (parents : List ℕ) (tracker tracker' : PauliFrameTracker) : Prop where
  core : SameCore tracker tracker'
  keys : tracker'.gadgets.keys.length = tracker.gadgets.keys.length
  mem_dependents : ∀ u v, v ∈ tracker'.network.dependents u ↔
    v ∈ tracker.network.dependents u ∨ v = gid ∧ u ∈ parents

theorem Attached.refl (gid : ℕ) (tracker : PauliFrameTracker) :
    Attached gid [] tracker tracker where
  core _ := rfl
  keys := rfl
  mem_dependents u v := by simp

theorem Attached.append {gid : ℕ} {parents parents' : List ℕ}
    {tracker' tracker'' : PauliFrameTracker} (h : Attached gid parents tracker tracker')
    (h' : Attached gid parents' tracker' tracker'') :
    Attached gid (parents ++ parents') tracker tracker'' where
  core := h.core.trans h'.core
  keys := h'.keys.trans h.keys
  mem_dependents u v := by
    rw [h'.mem_dependents, h.mem_dependents, List.mem_append]
    tauto

theorem attached_insert {gid u : ℕ}
    {gadget' : PauliFrameGadget} (hgadget : tracker.gadgets.lookup u = some gadget)
    (hcore : gadget'.core = gadget.core)
    (hdependents : ∀ v, v ∈ gadget'.dependents ↔ v ∈ gadget.dependents ∨ v = gid) :
    Attached gid [u] tracker ⟨tracker.gadgets.insert u gadget'⟩ where
  core w := by
    change ((tracker.gadgets.insert u gadget').lookup w).map _ = _
    rw [lookup_insert_eq]
    split_ifs with hw
    · rw [hw, hgadget, map_some, hcore, map_some]
    · rfl
  keys := length_keys_insert hgadget gadget'
  mem_dependents w v := by
    change v ∈ ((tracker.gadgets.insert u gadget').lookup w).elim [] _ ↔
      v ∈ (tracker.gadgets.lookup w).elim [] _ ∨ _
    rw [lookup_insert_eq]
    split_ifs with hw
    · rw [hw, hgadget, elim_some, elim_some, hdependents]
      simp
    · simp [hw]

/-- A port that no gadget is connected to. -/
def FreePort (tracker : PauliFrameTracker) (c : Connector) : Prop :=
  ∃ peer, tracker.gadgets.lookup c.gid = some peer ∧ peer.outputs[c.port]? = some none

theorem mem_reduceOption_set {A : Type} {l : List (Option A)} {i : ℕ} (hi : l[i]? = some none)
    (a b : A) : b ∈ (l.set i (some a)).reduceOption ↔ b ∈ l.reduceOption ∨ b = a := by
  rw [List.reduceOption_mem_iff, List.reduceOption_mem_iff, List.mem_iff_getElem?,
    List.mem_iff_getElem?]
  have hlt := (List.getElem?_eq_some_iff.mp hi).1
  constructor
  · rintro ⟨j, hj⟩
    rw [List.getElem?_set] at hj
    split_ifs at hj with hij
    · exact .inr (some_inj.mp (some_inj.mp hj)).symm
    · exact .inl ⟨j, hj⟩
  · rintro (⟨j, hj⟩ | rfl)
    · refine ⟨j, ?_⟩
      rw [getElem?_set_ne, hj]
      rintro rfl
      rw [hi] at hj
      cases hj
    · exact ⟨i, getElem?_set_self hlt⟩

theorem exists_connect_eq (gid : ℕ) {connection : Connector × ℕ}
    (hfree : tracker.FreePort connection.1) :
    ∃ tracker', connect gid tracker connection = some tracker' ∧
      Attached gid [connection.1.gid] tracker tracker' ∧
      ∀ c, c ≠ connection.1 → tracker.FreePort c → tracker'.FreePort c := by
  obtain ⟨⟨u, port⟩, index⟩ := connection
  obtain ⟨peer, hpeer, hnone⟩ := hfree
  change tracker.gadgets.lookup u = some peer at hpeer
  change peer.outputs[port]? = some none at hnone
  obtain ⟨hport, hget⟩ := List.getElem?_eq_some_iff.mp hnone
  let peer' : PauliFrameGadget :=
    { peer with outputs := peer.outputs.set port (some ⟨gid, index⟩) }
  refine ⟨⟨tracker.gadgets.insert u peer'⟩, ?_, ?_, ?_⟩
  · rw [connect, modify, hpeer]
    simp only [bind_eq_bind, bind_some]
    rw [if_pos hport]
    rfl
  · refine attached_insert hpeer ?_ ?_
    · simp [core, peer']
    · intro v
      have hmem := mem_reduceOption_set hnone ⟨gid, index⟩
      simp only [dependents, peer', List.mem_append, List.mem_map]
      constructor
      · rintro (⟨c, hc, rfl⟩ | hremote)
        · rcases (hmem c).mp hc with hold | rfl
          · exact .inl (.inl ⟨c, hold, rfl⟩)
          · exact .inr rfl
        · exact .inl (.inr hremote)
      · rintro ((⟨c, hc, rfl⟩ | hremote) | rfl)
        · exact .inl ⟨c, (hmem c).mpr (.inl hc), rfl⟩
        · exact .inr hremote
        · exact .inl ⟨_, (hmem _).mpr (.inr rfl), rfl⟩
  · rintro ⟨w, port'⟩ hne ⟨other, hother, hfree⟩
    change tracker.gadgets.lookup w = some other at hother
    rcases eq_or_ne w u with rfl | hw
    · obtain rfl := some_inj.mp (hother.symm.trans hpeer)
      refine ⟨peer', lookup_insert _, ?_⟩
      have hports : port ≠ port' := by
        rintro rfl
        exact hne rfl
      exact (getElem?_set_ne hports).trans hfree
    · exact ⟨other, (lookup_insert_ne hw).trans hother, hfree⟩

theorem exists_registerRemote_eq (gid : ℕ) {remoteRef : RemoteReadout}
    (hmem : remoteRef.gid ∈ tracker.gadgets) :
    ∃ tracker', registerRemote gid tracker remoteRef = some tracker' ∧
      Attached gid [remoteRef.gid] tracker tracker' := by
  obtain ⟨remote, hremote⟩ := isSome_iff_exists.mp (lookup_isSome.mpr hmem)
  let remote' : PauliFrameGadget :=
    { remote with remoteDependents := remote.remoteDependents ++ [gid] }
  refine ⟨⟨tracker.gadgets.insert remoteRef.gid remote'⟩, ?_, attached_insert hremote rfl ?_⟩
  · rw [registerRemote, modify, hremote]
    rfl
  · intro v
    simp only [dependents, remote', List.mem_append, mem_singleton]
    tauto

theorem exists_foldlM_connect_eq (gid : ℕ) (connections : List (Connector × ℕ))
    (hnodup : (connections.map Prod.fst).Nodup)
    (hfree : ∀ c ∈ connections.map Prod.fst, tracker.FreePort c) :
    ∃ tracker', connections.foldlM (connect gid) tracker = some tracker' ∧
      Attached gid ((connections.map Prod.fst).map Connector.gid) tracker tracker' := by
  induction connections generalizing tracker with
  | nil => exact ⟨tracker, rfl, .refl gid tracker⟩
  | cons connection connections ih =>
    rw [map_cons, nodup_cons] at hnodup
    obtain ⟨next, hnext, hattached, hkeep⟩ :=
      exists_connect_eq gid (hfree connection.1 (by simp))
    have hrest : ∀ c ∈ connections.map Prod.fst, next.FreePort c := by
      intro c hc
      refine hkeep c ?_ (hfree c (mem_cons_of_mem _ hc))
      rintro rfl
      exact hnodup.1 hc
    obtain ⟨tracker', htracker', hattached'⟩ := ih hnodup.2 hrest
    refine ⟨tracker', ?_, hattached.append hattached'⟩
    rw [foldlM_cons, hnext]
    exact htracker'

theorem exists_foldlM_registerRemote_eq (gid : ℕ) (remoteRefs : List RemoteReadout) (hmem : ∀ r ∈ remoteRefs, r.gid ∈ tracker.gadgets) :
    ∃ tracker', remoteRefs.foldlM (registerRemote gid) tracker = some tracker' ∧
      Attached gid (remoteRefs.map RemoteReadout.gid) tracker tracker' := by
  induction remoteRefs generalizing tracker with
  | nil => exact ⟨tracker, rfl, .refl gid tracker⟩
  | cons r remoteRefs ih =>
    obtain ⟨next, hnext, hattached⟩ := exists_registerRemote_eq gid (hmem r (by simp))
    have hrest : ∀ r' ∈ remoteRefs, r'.gid ∈ next.gadgets :=
      fun r' hr' => (hattached.core.mem_iff r'.gid).mpr (hmem r' (mem_cons_of_mem _ hr'))
    obtain ⟨tracker', htracker', hattached'⟩ := ih hrest
    refine ⟨tracker', ?_, hattached.append hattached'⟩
    rw [foldlM_cons, hnext]
    exact htracker'

/-- A new gadget fits to the gadgets of the tracker. -/
structure Fits (tracker : PauliFrameTracker) (gadget : PauliFrameGadget) : Prop where
  nodup : gadget.inputs.Nodup
  free : ∀ c ∈ gadget.inputs, tracker.FreePort c
  width : (gadget.inputs.map tracker.connectionWidth).sum + 1 =
    gadget.correctionPropagation.columnCount
  physical_rows : gadget.physicalCorrection.rowCount = gadget.numOutputObservables
  remote_shape : ∀ remoteRefs correctionMatrix,
    gadget.remoteConditionalCorrection = some (remoteRefs, correctionMatrix) →
      correctionMatrix.rowCount = gadget.numOutputObservables ∧
        correctionMatrix.columnCount = remoteRefs.length
  remote : ∀ r ∈ gadget.remoteRefs, ∃ remote, tracker.gadgets.lookup r.gid = some remote ∧
    r.readoutIndex < remote.numReadouts

section Fits

variable {tracker : PauliFrameTracker} {gadget : PauliFrameGadget}
variable (hfits : tracker.Fits gadget)

include hfits

theorem Fits.shaped {connectors : List Connector} (hbuilt : Built connectors gadget) :
    gadget.Shaped where
  logical_rows := hbuilt.logical_rows
  physical_rows := hfits.physical_rows
  propagation_rows := hbuilt.propagation_rows
  propagation_columns := hbuilt.propagation_columns
  remote := hfits.remote_shape
  bias_length := hbuilt.bias_length
  bias_le := hbuilt.bias_le
  raw r hr := by
    rw [hbuilt.raw] at hr
    cases hr
  measurements r hr := by
    rw [hbuilt.measurements] at hr
    cases hr
  raw_iff := by rw [hbuilt.raw, hbuilt.measurements]
  decoded d hd := by
    rw [hbuilt.decoded] at hd
    cases hd
  frame f hf := by
    rw [hbuilt.frame] at hf
    cases hf

theorem Fits.mem_of_mem_parents {u : ℕ} (hu : u ∈ gadget.parents) : u ∈ tracker.gadgets := by
  rw [PauliFrameGadget.parents, List.mem_append, List.mem_map, List.mem_map] at hu
  rcases hu with ⟨c, hc, rfl⟩ | ⟨r, hr, rfl⟩
  · obtain ⟨peer, hpeer, -⟩ := hfits.free c hc
    exact lookup_isSome.mp (isSome_iff_exists.mpr ⟨peer, hpeer⟩)
  · obtain ⟨remote, hremote, -⟩ := hfits.remote r hr
    exact lookup_isSome.mp (isSome_iff_exists.mpr ⟨remote, hremote⟩)

theorem Fits.exists_addGadget_eq {gid : ℕ} (hgid : gid ∉ tracker.gadgets) {gadgetType : GadgetType}
    {gadgetModifier : Option GadgetModifier} {connectors : List Connector}
    (hbuild : buildGadget gadgetType gadgetModifier portTypes connectors = some gadget) :
    ∃ tracker', tracker.addGadget gid gadgetType gadgetModifier portTypes connectors =
        some tracker' ∧
      Attached gid gadget.parents ⟨tracker.gadgets.insert gid gadget⟩ tracker' := by
  have hinputs := (built_of_buildGadget_eq hbuild).inputs
  let added : PauliFrameTracker := ⟨tracker.gadgets.insert gid gadget⟩
  have hfirst : connectors.zipIdx.map Prod.fst = connectors := by simp
  have hfree : ∀ c ∈ connectors.zipIdx.map Prod.fst, added.FreePort c := by
    intro c hc
    rw [hfirst, ← hinputs] at hc
    obtain ⟨peer, hpeer, hport⟩ := hfits.free c hc
    refine ⟨peer, ?_, hport⟩
    refine (lookup_insert_ne ?_).trans hpeer
    rintro rfl
    exact hgid (lookup_isSome.mp (isSome_iff_exists.mpr ⟨peer, hpeer⟩))
  have hnodup : (connectors.zipIdx.map Prod.fst).Nodup := by
    rw [hfirst, ← hinputs]
    exact hfits.nodup
  obtain ⟨connected, hconnected, hattached⟩ :=
    exists_foldlM_connect_eq gid connectors.zipIdx hnodup hfree
  have hremote : ∀ r ∈ gadget.remoteRefs, r.gid ∈ connected.gadgets := by
    intro r hr
    obtain ⟨remote, hremote, -⟩ := hfits.remote r hr
    rw [hattached.core.mem_iff]
    refine (mem_insert _).mpr (.inr ?_)
    exact lookup_isSome.mp (isSome_iff_exists.mpr ⟨remote, hremote⟩)
  obtain ⟨tracker', htracker', hattached'⟩ :=
    exists_foldlM_registerRemote_eq gid gadget.remoteRefs hremote
  refine ⟨tracker', ?_, ?_⟩
  · rw [addGadget, hbuild]
    simp only [bind_eq_bind, (guard_eq_some' ()).mpr hgid, bind_some]
    rw [hconnected, bind_some, ← htracker', remoteRefs]
    cases gadget.remoteConditionalCorrection <;> rfl
  · rw [hfirst, ← hinputs] at hattached
    exact hattached.append hattached'

end Fits

theorem dependents_added {gid : ℕ} (hgid : gid ∉ tracker.gadgets)
    {connectors : List Connector} (hbuilt : Built connectors gadget) :
    (⟨tracker.gadgets.insert gid gadget⟩ : PauliFrameTracker).network.dependents =
      tracker.network.dependents := by
  funext u
  change ((tracker.gadgets.insert gid gadget).lookup u).elim [] _ =
    (tracker.gadgets.lookup u).elim [] _
  rw [lookup_insert_eq]
  split_ifs with hu
  · rw [hu, lookup_eq_none.mpr hgid, elim_some, dependents,
      hbuilt.reduceOption_outputs, hbuilt.remoteDependents]
    rfl
  · rfl

section Attached

variable {tracker tracker' : PauliFrameTracker} {order : List ℕ} {gadget : PauliFrameGadget}
variable {gid : ℕ} {connectors : List Connector}
variable (h : tracker.WellFormed order)
variable (hgid : gid ∉ tracker.gadgets)
variable (hbuilt : Built connectors gadget)
variable (hfits : tracker.Fits gadget)
variable (hattached : Attached gid gadget.parents ⟨tracker.gadgets.insert gid gadget⟩ tracker')

include hattached

theorem Attached.exists_lookup {u : ℕ} {gadget' : PauliFrameGadget}
    (hgadget' : tracker'.gadgets.lookup u = some gadget') : u = gid ∧ gadget.core = gadget'.core ∨
      u ≠ gid ∧ ∃ old, tracker.gadgets.lookup u = some old ∧ old.core = gadget'.core := by
  obtain ⟨old, hold, hsame⟩ := hattached.core.exists_lookup hgadget'
  change (tracker.gadgets.insert gid gadget).lookup u = some old at hold
  rw [lookup_insert_eq] at hold
  split_ifs at hold with hu
  · obtain rfl := some_inj.mp hold
    exact .inl ⟨hu, hsame⟩
  · exact .inr ⟨hu, old, hold, hsame⟩

theorem Attached.exists_lookup_of_ne {u : ℕ} (hu : u ≠ gid) {old : PauliFrameGadget}
    (hold : tracker.gadgets.lookup u = some old) :
    ∃ gadget', tracker'.gadgets.lookup u = some gadget' ∧ gadget'.core = old.core := by
  have hlookup : (tracker.gadgets.insert gid gadget).lookup u = some old := by
    rw [lookup_insert_eq, if_neg hu, hold]
  exact hattached.core.symm.exists_lookup hlookup

theorem Attached.connectionWidth_eq {c : Connector} (hc : c.gid ≠ gid) :
    tracker'.connectionWidth c = tracker.connectionWidth c := by
  rw [hattached.core.connectionWidth_eq, connectionWidth, connectionWidth]
  exact congrArg (fun o : Option PauliFrameGadget => o.elim 0 fun peer => peer.portWidth c.port)
    (lookup_insert_ne hc)

section Ports

include h hfits

variable {u : ℕ} {gadget' : PauliFrameGadget}

theorem Attached.input (hgadget' : tracker'.gadgets.lookup u = some gadget') {c : Connector}
    (hc : c ∈ gadget'.inputs) :
    ∃ peer, tracker.gadgets.lookup c.gid = some peer ∧ c.port < peer.outputs.length := by
  rcases hattached.exists_lookup hgadget' with ⟨rfl, hsame⟩ | ⟨hu, old, hold, hsame⟩
  · have hinputs : gadget.inputs = gadget'.inputs :=
      eq_of_core_eq (fun _ => rfl) hsame
    obtain ⟨peer, hpeer, hport⟩ := hfits.free c (hinputs ▸ hc)
    exact ⟨peer, hpeer, (List.getElem?_eq_some_iff.mp hport).1⟩
  · have hinputs : old.inputs = gadget'.inputs :=
      eq_of_core_eq (fun _ => rfl) hsame
    exact h.input hold c (hinputs ▸ hc)

theorem Attached.remote (hgadget' : tracker'.gadgets.lookup u = some gadget') {r : RemoteReadout}
    (hr : r ∈ gadget'.remoteRefs) : ∃ remote, tracker.gadgets.lookup r.gid = some remote ∧
      r.readoutIndex < remote.numReadouts := by
  rcases hattached.exists_lookup hgadget' with ⟨rfl, hsame⟩ | ⟨hu, old, hold, hsame⟩
  · have hrefs : gadget.remoteRefs = gadget'.remoteRefs :=
      eq_of_core_eq (fun _ => rfl) hsame
    exact hfits.remote r (hrefs ▸ hr)
  · have hrefs : old.remoteRefs = gadget'.remoteRefs :=
      eq_of_core_eq (fun _ => rfl) hsame
    exact h.remote hold r (hrefs ▸ hr)

theorem Attached.mem_of_parents (hgadget' : tracker'.gadgets.lookup u = some gadget') {w : ℕ}
    (hw : w ∈ gadget'.parents) : w ∈ tracker.gadgets := by
  rw [PauliFrameGadget.parents, List.mem_append, List.mem_map, List.mem_map] at hw
  rcases hw with ⟨c, hc, rfl⟩ | ⟨r, hr, rfl⟩
  · obtain ⟨peer, hpeer, -⟩ := hattached.input h hfits hgadget' hc
    exact lookup_isSome.mp (isSome_iff_exists.mpr ⟨peer, hpeer⟩)
  · obtain ⟨remote, hremote, -⟩ := hattached.remote h hfits hgadget' hr
    exact lookup_isSome.mp (isSome_iff_exists.mpr ⟨remote, hremote⟩)

end Ports

include h hgid hbuilt hfits

theorem Attached.wellFormed : tracker'.WellFormed (order ++ [gid]) := by
  have hne : ∀ {u : ℕ}, u ∈ tracker.gadgets → u ≠ gid := by
    rintro u hu rfl
    exact hgid hu
  have hne' : ∀ {u : ℕ} {old : PauliFrameGadget}, tracker.gadgets.lookup u = some old → u ≠ gid :=
    fun hold => hne (lookup_isSome.mp (isSome_iff_exists.mpr ⟨_, hold⟩))
  have hnew : gid ∉ order := fun hmem => hgid (h.mem_order.mp hmem)
  refine
    { nodup := ?_, length := ?_, shaped := ?_, input := ?_, width := ?_, remote := ?_,
      mem_dependents := ?_, mem_order := ?_, before := ?_ }
  · rw [nodup_append]
    exact ⟨h.nodup, nodup_singleton _, fun u hu v hv huv => hnew (by
      rw [mem_singleton] at hv
      rwa [← hv, ← huv])⟩
  · rw [hattached.keys, keys_insert, length_append, h.length, length_cons, erase_of_not_mem hgid]
    rfl
  · intro u gadget' hgadget'
    rcases hattached.exists_lookup hgadget' with ⟨rfl, hsame⟩ | ⟨hu, old, hold, hsame⟩
    · exact eq_of_core_eq shaped_core hsame ▸
        hfits.shaped hbuilt
    · exact eq_of_core_eq shaped_core hsame ▸ h.shaped hold
  · intro u gadget' hgadget' c hc
    obtain ⟨peer, hpeer, hport⟩ := hattached.input h hfits hgadget' hc
    obtain ⟨peer', hpeer', hsame⟩ := hattached.exists_lookup_of_ne (hne' hpeer) hpeer
    have houtputs : peer'.outputs.length = peer.outputs.length :=
      eq_of_core_eq (f := fun g => g.outputs.length)
        length_outputs_core hsame
    exact ⟨peer', hpeer', houtputs ▸ hport⟩
  · intro u gadget' hgadget'
    have hwidths : gadget'.inputs.map tracker'.connectionWidth =
        gadget'.inputs.map tracker.connectionWidth := by
      refine map_congr_left fun c hc => hattached.connectionWidth_eq ?_
      obtain ⟨peer, hpeer, -⟩ := hattached.input h hfits hgadget' hc
      exact hne' hpeer
    rw [hwidths]
    rcases hattached.exists_lookup hgadget' with ⟨rfl, hsame⟩ | ⟨hu, old, hold, hsame⟩
    · have hinputs : gadget.inputs = gadget'.inputs :=
        eq_of_core_eq (fun _ => rfl) hsame
      have hmatrix : gadget.correctionPropagation = gadget'.correctionPropagation :=
        eq_of_core_eq (fun _ => rfl) hsame
      rw [← hinputs, ← hmatrix]
      exact hfits.width
    · have hinputs : old.inputs = gadget'.inputs :=
        eq_of_core_eq (fun _ => rfl) hsame
      have hmatrix : old.correctionPropagation = gadget'.correctionPropagation :=
        eq_of_core_eq (fun _ => rfl) hsame
      rw [← hinputs, ← hmatrix]
      exact h.width hold
  · intro u gadget' hgadget' r hr
    obtain ⟨remote, hremote, hindex⟩ := hattached.remote h hfits hgadget' hr
    obtain ⟨remote', hremote', hsame⟩ := hattached.exists_lookup_of_ne (hne' hremote) hremote
    have hcount : remote'.numReadouts = remote.numReadouts :=
      eq_of_core_eq (fun _ => rfl) hsame
    exact ⟨remote', hremote', hcount ▸ hindex⟩
  · intro u v
    rw [hattached.mem_dependents, dependents_added hgid hbuilt, h.mem_dependents]
    constructor
    · rintro (⟨old, hold, hu⟩ | ⟨rfl, hu⟩)
      · obtain ⟨gadget', hgadget', hsame⟩ := hattached.exists_lookup_of_ne (hne' hold) hold
        have hparents' : gadget'.parents = old.parents :=
          eq_of_core_eq (fun _ => rfl) hsame
        exact ⟨gadget', hgadget', hparents' ▸ hu⟩
      · have hlookup : (tracker.gadgets.insert v gadget).lookup v = some gadget :=
          lookup_insert _
        obtain ⟨gadget', hgadget', hsame⟩ := hattached.core.symm.exists_lookup hlookup
        have hparents' : gadget'.parents = gadget.parents :=
          eq_of_core_eq (fun _ => rfl) hsame
        exact ⟨gadget', hgadget', hparents' ▸ hu⟩
    · rintro ⟨gadget', hgadget', hu⟩
      rcases hattached.exists_lookup hgadget' with ⟨rfl, hsame⟩ | ⟨hv, old, hold, hsame⟩
      · have hparents' : gadget.parents = gadget'.parents :=
          eq_of_core_eq (fun _ => rfl) hsame
        exact .inr ⟨rfl, hparents' ▸ hu⟩
      · have hparents' : old.parents = gadget'.parents :=
          eq_of_core_eq (fun _ => rfl) hsame
        exact .inl ⟨old, hold, hparents' ▸ hu⟩
  · intro u
    rw [hattached.core.mem_iff, List.mem_append, mem_singleton, h.mem_order]
    exact (or_comm.trans (mem_insert _).symm)
  · intro u gadget' hgadget' w hw
    have hmem := hattached.mem_of_parents h hfits hgadget' hw
    rw [idxOf_append_of_mem (h.mem_order.mpr hmem)]
    rcases hattached.exists_lookup hgadget' with ⟨rfl, hsame⟩ | ⟨hu, old, hold, hsame⟩
    · rw [idxOf_append_of_notMem hnew]
      exact Nat.lt_add_right _ (idxOf_lt_length_of_mem (h.mem_order.mpr hmem))
    · have hsame' : old.parents = gadget'.parents :=
        eq_of_core_eq (fun _ => rfl) hsame
      have hmem' : u ∈ order := by
        refine h.mem_order.mpr (lookup_isSome.mp ?_)
        exact isSome_iff_exists.mpr ⟨old, hold⟩
      rw [idxOf_append_of_mem hmem']
      exact h.before hold w (hsame' ▸ hw)

omit h hfits in
theorem Attached.frames_eq : tracker'.frames = tracker.frames := by
  have hnone : tracker.frames gid = gadget.frame := by
    rw [frames, lookup_eq_none.mpr hgid, bind_none, hbuilt.frame]
  rw [hattached.core.frames_eq, frames_insert, ← hnone, Function.update_eq_self]

omit hfits in
theorem Attached.solves (hsolves : tracker.network.Solves tracker.frames) :
    tracker'.network.Solves tracker'.frames := by
  intro v
  change tracker'.equation tracker'.frames v = tracker'.frames v
  rw [hattached.frames_eq hgid hbuilt, hattached.core.equation_eq]
  rcases eq_or_ne v gid with rfl | hv
  · have hnone : tracker.frames v = none := by rw [frames, lookup_eq_none.mpr hgid, bind_none]
    rw [hnone, equation, lookup_insert, bind_eq_bind, bind_some, hbuilt.decoded]
    rfl
  · rw [← hsolves v]
    change equation _ tracker.frames v = tracker.equation tracker.frames v
    rw [equation, equation, lookup_insert_ne hv]
    cases hgadget : tracker.gadgets.lookup v with
    | none => rfl
    | some old =>
      have hinputs : old.inputs.mapM
          (inputSlice ⟨tracker.gadgets.insert gid gadget⟩ tracker.frames) =
            old.inputs.mapM (tracker.inputSlice tracker.frames) := by
        refine mapM_congr fun c hc => ?_
        obtain ⟨peer, hpeer, -⟩ := h.input hgadget c hc
        have hc' : c.gid ≠ gid := by
          rintro hc'
          rw [hc', lookup_eq_none.mpr hgid] at hpeer
          cases hpeer
        rw [inputSlice, inputSlice, lookup_insert_ne hc']
      simp only [bind_eq_bind, bind_some, hinputs]

end Attached

end PauliFrameTracker

end QdkEc
