import QdkEc.DeqRuntime.SymbolicRuns

/-!
# Interleavings of execution and decoding

Corrections reach the tracker while gadgets are still executed.  This module shows
that it does not matter when: the state of the tracker depends on the calls that
execute gadgets and on the corrections that are loaded last.
-/

namespace QdkEc

open Option PauliFrameGadget

/-- The calls that load no correction. -/
def executed : List TrackerCall → List TrackerCall
  | [] => []
  | .loadCorrection _ _ _ :: calls => executed calls
  | call :: calls => call :: executed calls

namespace PauliFrameTracker

theorem data_eq_of_base {o o' : Option PauliFrameGadget} (hbase : o.map base = o'.map base)
    (hdecoded : o.bind decoded = o'.bind decoded) : o.map data = o'.map data := by
  cases o <;> cases o' <;> simp_all [base, data]

theorem eq_of_data {o o' : Option PauliFrameGadget} (hdata : o.map data = o'.map data)
    (hframe : o.bind frame = o'.bind frame) : o = o' := by
  cases o with
  | none => cases o' <;> simp_all
  | some gadget =>
    cases o' with
    | none => simp_all
    | some gadget' =>
      cases gadget
      cases gadget'
      simp_all [data]

/-- The gadgets fit together, and the frames solve the frame equations. -/
def Sound (tracker : PauliFrameTracker) : Prop :=
  (∃ order, tracker.WellFormed order) ∧ tracker.network.Solves tracker.frames

variable {tracker tracker' : PauliFrameTracker}

theorem Sound.lookup_eq (h : tracker.Sound) (h' : tracker'.Sound)
    (hbase : SameBase tracker tracker') (hdecoded : tracker'.decodedOf = tracker.decodedOf)
    (u : ℕ) : tracker'.gadgets.lookup u = tracker.gadgets.lookup u := by
  obtain ⟨⟨order, hwell⟩, hsolves⟩ := h
  have hdata : SameData tracker tracker' :=
    fun v => data_eq_of_base (hbase v) (congrFun hdecoded v)
  have hframes : tracker'.frames = tracker.frames :=
    hwell.ordered.solves_unique (hdata.network_eq ▸ h'.2) hsolves
  exact eq_of_data (hdata u) (congrFun hframes u)

/-- A call that executes a gadget changes trackers alike that differ in frames and corrections. -/
theorem Sound.exists_step (h' : tracker'.Sound) (hbase : SameBase tracker tracker')
    {call : TrackerCall} (hcall : executed [call] = [call]) (hadmits : tracker.Admits call)
    {next : PauliFrameTracker × PauliFrameUpdates} (hnext : tracker.step call = some next) :
    ∃ next', tracker'.step call = some next' ∧ next'.1.Sound ∧ SameBase next.1 next'.1 := by
  obtain ⟨⟨order, hwell⟩, hsolves⟩ := h'
  have hadmits' : tracker'.Admits (call.flip fun _ => false) := hbase.admits_flip _ hadmits
  obtain ⟨next', hnext'⟩ := hwell.exists_steps hsolves hadmits'
  have hsound : next'.1.Sound := ⟨hnext'.wellFormed, hnext'.solves⟩
  have hstep' := hnext'.step
  cases call with
  | addGadget gid gadgetType gadgetModifier portTypes connectors =>
    obtain ⟨added, hadded, rfl⟩ := map_eq_some_iff.mp hnext
    obtain ⟨added', hadded', rfl⟩ := map_eq_some_iff.mp hstep'
    exact ⟨_, hnext'.step, hsound, hbase.addGadget hadded hadded'⟩
  | loadRaw gid rawReadouts rawMeasurements =>
    obtain ⟨loaded, hloaded, rfl⟩ := map_eq_some_iff.mp hnext
    obtain ⟨loaded', hloaded', rfl⟩ := map_eq_some_iff.mp hstep'
    exact ⟨_, hnext'.step, hsound, hbase.loadRaw hloaded hloaded'⟩
  | loadCorrection gid residual readoutFlips => cases hcall

theorem Sound.exists_run_executed {calls : List TrackerCall} (h : tracker.Sound)
    (h' : tracker'.Sound) (hbase : SameBase tracker tracker')
    (hadmits : tracker.EveryStep Admits calls) {stop : PauliFrameTracker × List PauliFrameUpdates}
    (hrun : tracker.run calls = some stop) :
    ∃ stop', tracker'.run (executed calls) = some stop' ∧ SameBase stop.1 stop'.1 := by
  induction calls generalizing tracker tracker' stop with
  | nil =>
    obtain rfl := some_inj.mp hrun
    exact ⟨(tracker', []), rfl, hbase⟩
  | cons call calls ih =>
    obtain ⟨⟨order, hwell⟩, hsolves⟩ := h
    obtain ⟨next, hnext⟩ := hwell.exists_steps hsolves hadmits.1
    rw [run, hnext.step, bind_eq_bind, bind_some] at hrun
    obtain ⟨rest, hrest, hstop⟩ := bind_eq_some_iff.mp hrun
    obtain rfl := some_inj.mp hstop
    have ih {tracker' : PauliFrameTracker} (h' : tracker'.Sound)
        (hbase : SameBase next.1 tracker') :=
      ih ⟨hnext.wellFormed, hnext.solves⟩ h' hbase (hadmits.2 next hnext.step) hrest
    have hexecutes (hcall : executed [call] = [call]) :
        ∃ stop', tracker'.run (call :: executed calls) = some stop' ∧ SameBase rest.1 stop'.1 := by
      obtain ⟨next', hstep', hsound, hsame⟩ := h'.exists_step hbase hcall hadmits.1 hnext.step
      obtain ⟨stop', hrun', hstops⟩ := ih hsound hsame
      refine ⟨(stop'.1, next'.2 :: stop'.2), ?_, hstops⟩
      rw [run, hstep', bind_eq_bind, bind_some, hrun']
      rfl
    cases call with
    | addGadget gid gadgetType gadgetModifier portTypes connectors => exact hexecutes rfl
    | loadRaw gid rawReadouts rawMeasurements => exact hexecutes rfl
    | loadCorrection gid residual readoutFlips =>
      obtain ⟨_, _, loaded, -, hload, hloads, -⟩ :=
        hwell.exists_loadCorrection_eq hsolves hadmits.1
      obtain rfl := some_inj.mp (hnext.step.symm.trans hload)
      exact ih h' fun u => (hbase u).trans (hloads.base u).symm

/-- Runs that execute the same gadgets and load the same corrections last end in the same state,
wherever the corrections stand between the other calls and whatever they replace. -/
theorem interleavings_confluent {calls calls' : List TrackerCall}
    (hcalls : new.EveryStep Admits calls) (hcalls' : new.EveryStep Admits calls')
    (hexecuted : executed calls = executed calls') (hlast : lastLoaded calls = lastLoaded calls') :
    ∃ stop stop', new.run calls = some stop ∧ new.run calls' = some stop' ∧
      ∀ u, stop.1.gadgets.lookup u = stop'.1.gadgets.lookup u := by
  obtain ⟨hwell, hsolves⟩ := wellFormed_new
  obtain ⟨stop, hruns⟩ := hwell.exists_runs hsolves hcalls
  obtain ⟨stop', hruns'⟩ := hwell.exists_runs hsolves hcalls'
  have hsound : new.Sound := ⟨⟨_, hwell⟩, hsolves⟩
  obtain ⟨reference, hreference, hbase⟩ :=
    hsound.exists_run_executed hsound (fun _ => rfl) hcalls hruns.run
  obtain ⟨_, hreference', hbase'⟩ :=
    hsound.exists_run_executed hsound (fun _ => rfl) hcalls' hruns'.run
  rw [← hexecuted] at hreference'
  obtain rfl := some_inj.mp (hreference.symm.trans hreference')
  refine ⟨stop, stop', hruns.run, hruns'.run,
    Sound.lookup_eq ⟨hruns'.wellFormed, hruns'.solves⟩ ⟨hruns.wellFormed, hruns.solves⟩
      (fun u => (hbase u).symm.trans (hbase' u)) (funext fun u => ?_)⟩
  rw [hruns.decodedOf, hruns'.decodedOf, hlast]

/-- A correction that is replaced, and the same run without it. -/
theorem interleavings_confluent_residualReload : ∃ stop stop',
    new.run residualReload = some stop ∧
      new.run (residualReload.take 2 ++ residualReload.drop 3) = some stop' ∧
        ∀ u, stop.1.gadgets.lookup u = stop'.1.gadgets.lookup u := by
  refine interleavings_confluent residualReload_admitted ?_ rfl (funext fun u => ?_)
  · refine ⟨residualReload_admitted.1, fun next hnext => ?_⟩
    refine ⟨(residualReload_admitted.2 next hnext).1, fun next' hnext' => ⟨?_, fun _ _ => trivial⟩⟩
    obtain rfl := some_inj.mp hnext
    obtain rfl := some_inj.mp hnext'
    exact ⟨rawGadget, rfl, rfl, rfl, rfl⟩
  · by_cases hu : u = 1 <;> simp [residualReload, lastLoaded, hu]

end PauliFrameTracker

end QdkEc
