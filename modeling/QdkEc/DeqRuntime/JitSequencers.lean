import QdkEc.DeqRuntime.JitRuns
import QdkEc.Lib.OptionTraversal

/-!
# What sequenced checks and errors refer to

This module proves that the remote indices and the biases that a sequencer hands out can
be undone: read the way the coordinators read them, the measurements of a compiled check
are those of its enumeration, and the checks of a compiled error are those of its
enumeration.  Biases are minima, so none of them is greater than an index it is
subtracted from.
-/

namespace QdkEc

open List Option

namespace Sequencer

variable {A : Type}

/-- The remote entries belong to distinct owners, each with its own. -/
structure Valid (remoteOf : ℕ → A → Prop) (sequencer : Sequencer A) : Prop where
  nodup : sequencer.ids.Nodup
  remotes : List.Forall₂ remoteOf sequencer.ids sequencer.remotes
  length : sequencer.minimumIndices.length = sequencer.ids.length

/-- A sequencer knows more owners than another one, and its least indices are not greater. -/
structure Extends (sequencer later : Sequencer A) : Prop where
  ids : ∀ remoteIndex id : ℕ, sequencer.ids[remoteIndex]? = some id →
    later.ids[remoteIndex]? = some id
  bias : ∀ remoteIndex < sequencer.ids.length, later.bias remoteIndex ≤ sequencer.bias remoteIndex

/-- A remote index stands for an owner: the current one has none. -/
def RefersTo (sequencer : Sequencer A) (current : ℕ) (remote : Option ℕ) (index id : ℕ) : Prop :=
  (remote = none ∧ id = current) ∨
    ∃ remoteIndex, remote = some remoteIndex ∧ id ≠ current ∧
      sequencer.ids[remoteIndex]? = some id ∧ sequencer.bias remoteIndex ≤ index

theorem valid_new (remoteOf : ℕ → A → Prop) : (new : Sequencer A).Valid remoteOf where
  nodup := nodup_nil
  remotes := .nil
  length := rfl

theorem Valid.getElem?_minimumIndices {remoteOf : ℕ → A → Prop} {sequencer : Sequencer A}
    (hvalid : sequencer.Valid remoteOf) {remoteIndex id : ℕ}
    (hid : sequencer.ids[remoteIndex]? = some id) :
    sequencer.minimumIndices[remoteIndex]? = some (sequencer.bias remoteIndex) := by
  obtain ⟨hlt, -⟩ := List.getElem?_eq_some_iff.mp hid
  rw [← hvalid.length] at hlt
  rw [bias, List.getElem?_eq_getElem hlt, Option.getD_some]

theorem Extends.refl (sequencer : Sequencer A) : sequencer.Extends sequencer :=
  ⟨fun _ _ h => h, fun _ _ => le_rfl⟩

theorem Extends.trans {first second third : Sequencer A} (hfirst : first.Extends second)
    (hsecond : second.Extends third) : first.Extends third where
  ids _ _ h := hsecond.ids _ _ (hfirst.ids _ _ h)
  bias remoteIndex hlt := by
    have hlater := hfirst.ids remoteIndex _ (List.getElem?_eq_getElem hlt)
    obtain ⟨hlt', -⟩ := List.getElem?_eq_some_iff.mp hlater
    exact (hsecond.bias remoteIndex hlt').trans (hfirst.bias remoteIndex hlt)

theorem RefersTo.mono {sequencer later : Sequencer A} {current index id : ℕ} {remote : Option ℕ}
    (h : sequencer.RefersTo current remote index id) (hextends : sequencer.Extends later) :
    later.RefersTo current remote index id := by
  rcases h with hlocal | ⟨remoteIndex, hremote, hne, hid, hbias⟩
  · exact .inl hlocal
  · obtain ⟨hlt, -⟩ := List.getElem?_eq_some_iff.mp hid
    exact .inr ⟨remoteIndex, hremote, hne, hextends.ids _ _ hid,
      (hextends.bias remoteIndex hlt).trans hbias⟩

theorem getOrInsert_spec {remoteOf : ℕ → A → Prop} {sequencer : Sequencer A}
    (hvalid : sequencer.Valid remoteOf) (id index : ℕ) {remote : A} (hremote : remoteOf id remote) :
    (sequencer.getOrInsert id index remote).1.Valid remoteOf ∧
      sequencer.Extends (sequencer.getOrInsert id index remote).1 ∧
      (sequencer.getOrInsert id index remote).1.ids[
        (sequencer.getOrInsert id index remote).2]? = some id ∧
      (sequencer.getOrInsert id index remote).1.bias (sequencer.getOrInsert id index remote).2 ≤
        index := by
  rw [getOrInsert]
  split
  · rename_i hmem
    have hlt := idxOf_lt_length_of_mem hmem
    have hlt' : sequencer.ids.idxOf id < sequencer.minimumIndices.length := by rwa [hvalid.length]
    refine ⟨⟨hvalid.nodup, hvalid.remotes, by rw [length_modify, hvalid.length]⟩,
      ⟨fun _ _ h => h, fun remoteIndex _ => ?_⟩, ?_, ?_⟩
    · rw [bias, bias, getElem?_modify]
      cases sequencer.minimumIndices[remoteIndex]? with
      | none => exact le_rfl
      | some minimum =>
        split
        · exact min_le_left minimum index
        · exact le_rfl
    · rw [List.getElem?_eq_getElem hlt, getElem_idxOf]
    · rw [bias, getElem?_modify, List.getElem?_eq_getElem hlt']
      dsimp only [Option.map_eq_map, Option.map_some, Option.getD_some]
      rw [if_pos rfl]
      exact min_le_right _ _
  · rename_i hnotmem
    refine ⟨⟨?_, ?_, by simp [hvalid.length]⟩,
      ⟨fun remoteIndex id' h => ?_, fun remoteIndex hlt => ?_⟩, ?_, ?_⟩
    · exact nodup_append.mpr ⟨hvalid.nodup, nodup_singleton id, fun a ha b hb hab =>
        hnotmem (mem_singleton.mp hb ▸ hab ▸ ha)⟩
    · exact List.rel_append hvalid.remotes (.cons hremote .nil)
    · exact List.getElem?_append_left (List.getElem?_eq_some_iff.mp h).1 ▸ h
    · rw [bias, bias, List.getElem?_append_left (by rwa [hvalid.length])]
    · simp
    · simp [bias, ← hvalid.length]

end Sequencer

def IsRemoteGadget (gid : ℕ) (remote : RemoteGadget) : Prop :=
  remote.absoluteGid = some gid

/-- A measurement of a compiled check stands for a measurement of a gadget. -/
def StandsFor (sequencer : Sequencer RemoteGadget) (currentGid : ℕ) (remote : RemoteMeasurement)
    (measurement : ExplicitMeasurement) :
    Prop :=
  sequencer.RefersTo currentGid remote.remoteGadget remote.measurementIndex measurement.gid ∧
    remote.measurementIndex = measurement.measurementIndex

variable {expanded : List (Finset ExplicitMeasurement × Bool)}
  {orders : List (List ExplicitMeasurement)}

section Measurements

variable {sequencer : Sequencer RemoteGadget} {currentGid : ℕ} {gtypeOf : ℕ → Option ℕ}

theorem foldlM_sequenceMeasurement (hvalid : sequencer.Valid IsRemoteGadget)
    {measurements : List ExplicitMeasurement}
    {sequenced : Sequencer RemoteGadget × List RemoteMeasurement}
    (hrun : measurements.foldlM (sequenceMeasurement currentGid gtypeOf) (sequencer, []) =
      some sequenced) : sequenced.1.Valid IsRemoteGadget ∧ sequencer.Extends sequenced.1 ∧
      List.Forall₂ (StandsFor sequenced.1 currentGid) sequenced.2 measurements := by
  refine foldlM_induction (fun done sequenced => sequenced.1.Valid IsRemoteGadget ∧
    sequencer.Extends sequenced.1 ∧
      List.Forall₂ (StandsFor sequenced.1 currentGid) sequenced.2 done)
    ⟨hvalid, .refl sequencer, .nil⟩ ?_ hrun
  rintro done measurement ⟨before, emitted⟩ after ⟨hvalid, hextends, hemitted⟩ hstep
  rw [sequenceMeasurement] at hstep
  split at hstep
  · rename_i hlocal
    cases hstep
    exact ⟨hvalid, hextends, List.rel_append hemitted (.cons ⟨.inl ⟨rfl, hlocal⟩, rfl⟩ .nil)⟩
  · rename_i hremote
    obtain ⟨gtype, -, hstep⟩ := bind_eq_some_iff.mp hstep
    cases hstep
    have hentry : IsRemoteGadget measurement.gid ⟨none, gtype, 0, some measurement.gid, none⟩ :=
      rfl
    obtain ⟨hvalid', hextends', hid, hbias⟩ := Sequencer.getOrInsert_spec hvalid measurement.gid
      measurement.measurementIndex hentry
    refine ⟨hvalid', hextends.trans hextends', List.rel_append (hemitted.imp fun _ _ h => ?_)
      (.cons ⟨.inr ⟨_, rfl, hremote, hid, hbias⟩, rfl⟩ .nil)⟩
    exact ⟨h.1.mono hextends', h.2⟩

/-- A compiled check stands for a set of measurements: its measurements are sorted, and before that
they stand for an enumeration of the set. -/
def CheckStandsFor (sequencer : Sequencer RemoteGadget) (currentGid : ℕ) (check : Check)
    (expanded : Finset ExplicitMeasurement × Bool) :
    Prop :=
  check.naturallyFlipped = expanded.2 ∧ ∃ emitted order, check.measurements.Perm emitted ∧
    Enumerates order expanded.1 ∧ List.Forall₂ (StandsFor sequencer currentGid) emitted order

theorem CheckStandsFor.mono {later : Sequencer RemoteGadget} {check : Check}
    {expanded : Finset ExplicitMeasurement × Bool}
    (h : CheckStandsFor sequencer currentGid check expanded) (hextends : sequencer.Extends later) :
    CheckStandsFor later currentGid check expanded := by
  obtain ⟨hflipped, emitted, order, hperm, henumerates, hemitted⟩ := h
  exact ⟨hflipped, emitted, order, hperm, henumerates,
    hemitted.imp fun _ _ h => ⟨h.1.mono hextends, h.2⟩⟩

theorem sequenceChecks_spec (hvalid : sequencer.Valid IsRemoteGadget)
        {sequenced : Sequencer RemoteGadget × List Check}
    (hrun : JitCompiler.sequenceChecks currentGid gtypeOf sequencer expanded orders =
      some sequenced) : sequenced.1.Valid IsRemoteGadget ∧ sequencer.Extends sequenced.1 ∧
      List.Forall₂ (CheckStandsFor sequenced.1 currentGid) sequenced.2 expanded := by
  induction expanded generalizing sequencer orders sequenced with
  | nil =>
    cases orders with
    | nil =>
      cases hrun
      exact ⟨hvalid, .refl sequencer, .nil⟩
    | cons order orders => cases hrun
  | cons set rest ih =>
    cases orders with
    | nil => cases hrun
    | cons order orders =>
      obtain ⟨_, hguard, hrun⟩ := bind_eq_some_iff.mp hrun
      obtain ⟨⟨middle, check⟩, hcheck, hrun⟩ := bind_eq_some_iff.mp hrun
      obtain ⟨finished, hfinished, hrun⟩ := bind_eq_some_iff.mp hrun
      cases hrun
      obtain ⟨emitted, hemitted, hcheck⟩ := bind_eq_some_iff.mp hcheck
      cases hcheck
      have henumerates : Enumerates order set.1 := (guard_eq_some' _).mp hguard
      obtain ⟨hvalid', hextends, hstands⟩ := foldlM_sequenceMeasurement hvalid hemitted
      obtain ⟨hvalid'', hextends', hrest⟩ := ih hvalid' hfinished
      refine ⟨hvalid'', hextends.trans hextends', .cons ?_ hrest⟩
      exact CheckStandsFor.mono ⟨rfl, emitted.2, order, perm_insertionSort _ _,
        henumerates, hstands⟩ hextends'

end Measurements

/-- The measurement that a measurement of a check is read as: its index is relative to the bias of
its remote gadget. -/
def readMeasurement (remoteGadgets : List RemoteGadget) (gid : ℕ)
    (measurement : RemoteMeasurement) :
    Option ExplicitMeasurement :=
  match measurement.remoteGadget with
  | none => some ⟨gid, measurement.measurementIndex⟩
  | some remoteIndex => do
      let remote ← remoteGadgets[remoteIndex]?
      let remoteGid ← remote.absoluteGid
      some ⟨remoteGid, measurement.measurementIndex + remote.measurementBias⟩

/-- A check is read as a set of measurements, each of them once. -/
def Check.ReadsAs (remoteGadgets : List RemoteGadget) (gid : ℕ) (check : Check)
    (expanded : Finset ExplicitMeasurement × Bool) :
    Prop :=
  check.naturallyFlipped = expanded.2 ∧ ∃ measurements,
    check.measurements.mapM (readMeasurement remoteGadgets gid) = some measurements ∧
      Enumerates measurements expanded.1

section Reading

variable {sequencer : Sequencer RemoteGadget} {gid : ℕ}

theorem StandsFor.exists_applyMeasurementBias_eq (hvalid : sequencer.Valid IsRemoteGadget)
    {remote : RemoteMeasurement} {measurement : ExplicitMeasurement}
    (h : StandsFor sequencer gid remote measurement) :
    ∃ biased, applyMeasurementBias sequencer remote = some biased ∧
      readMeasurement (finalizeGadgets sequencer) gid biased = some measurement := by
  obtain ⟨⟨hnone, hgid⟩ | ⟨remoteIndex, hsome, -, hid, hbias⟩, hindex⟩ := h
  · refine ⟨remote, by rw [applyMeasurementBias, hnone], ?_⟩
    rw [readMeasurement, hnone, ← hgid, hindex]
  · refine ⟨⟨some remoteIndex, remote.measurementIndex - sequencer.bias remoteIndex⟩, ?_, ?_⟩
    · simp [applyMeasurementBias, hsome, hvalid.getElem?_minimumIndices hid, hbias]
    · obtain ⟨hlt, hget⟩ := List.getElem?_eq_some_iff.mp hid
      have hlt' : remoteIndex < sequencer.remotes.length := by rwa [← hvalid.remotes.length_eq]
      have hentry := hvalid.remotes.get hlt hlt'
      simp only [readMeasurement, finalizeGadgets, List.getElem?_map,
        getElem?_zipIdx, List.getElem?_eq_getElem hlt', Option.map_some, bind_some,
        bind_eq_bind, zero_add]
      rw [show sequencer.remotes[remoteIndex].absoluteGid = some measurement.gid by
        rw [← hget]; exact hentry]
      rw [bind_some, Nat.sub_add_cancel hbias, hindex]

theorem CheckStandsFor.exists_applyBiasToCheck_eq (hvalid : sequencer.Valid IsRemoteGadget)
    {check : Check} {expanded : Finset ExplicitMeasurement × Bool}
    (h : CheckStandsFor sequencer gid check expanded) :
    ∃ biased, applyBiasToCheck sequencer check = some biased ∧
      Check.ReadsAs (finalizeGadgets sequencer) gid biased expanded := by
  obtain ⟨hflipped, emitted, order, hperm, henumerates, hemitted⟩ := h
  obtain ⟨measurements, hstands, hperm'⟩ := perm_comp_forall₂ hperm hemitted
  obtain ⟨biased, hbiased, hread⟩ := exists_forall₂_comp
    (hstands.imp fun _ _ hstands => hstands.exists_applyMeasurementBias_eq hvalid)
  refine ⟨{ check with measurements := biased }, ?_, hflipped, measurements,
    mapM_eq_some_iff.mpr hread, hperm'.nodup_iff.mpr henumerates.1, ?_⟩
  · rw [applyBiasToCheck, mapM_eq_some_iff.mpr hbiased]
    rfl
  · rw [← henumerates.2]
    exact toFinset_eq_of_perm _ _ hperm'

theorem buildCheckModelType_reads {gtype : ℕ} {gtypeOf : ℕ → Option ℕ}
        {checkModelType : CheckModelType}
    (hbuild : JitCompiler.buildCheckModelType gid gtype gtypeOf expanded orders =
      some checkModelType) :
    List.Forall₂ (Check.ReadsAs checkModelType.remoteGadgets gid)
      checkModelType.checks expanded := by
  obtain ⟨sequenced, hsequenced, hbuild⟩ := bind_eq_some_iff.mp hbuild
  obtain ⟨checks, hchecks, hbuild⟩ := bind_eq_some_iff.mp hbuild
  cases hbuild
  obtain ⟨hvalid, -, hstands⟩ := sequenceChecks_spec (Sequencer.valid_new IsRemoteGadget) hsequenced
  obtain ⟨biased, hbiased, hreads⟩ := exists_forall₂_comp
    (hstands.imp fun _ _ h => h.exists_applyBiasToCheck_eq hvalid)
  rw [mapM_eq_some_iff.mpr hbiased] at hchecks
  cases hchecks
  exact hreads

theorem exists_mapM_applyBiasToCheck_eq {gtypeOf : ℕ → Option ℕ}
        {sequenced : Sequencer RemoteGadget × List Check}
    (hsequenced : JitCompiler.sequenceChecks gid gtypeOf .new expanded orders = some sequenced) :
    ∃ checks, sequenced.2.mapM (applyBiasToCheck sequenced.1) = some checks := by
  obtain ⟨hvalid, -, hstands⟩ := sequenceChecks_spec (Sequencer.valid_new IsRemoteGadget) hsequenced
  obtain ⟨biased, hbiased, -⟩ := exists_forall₂_comp
    (hstands.imp fun _ _ h => h.exists_applyBiasToCheck_eq hvalid)
  exact ⟨biased, mapM_eq_some_iff.mpr hbiased⟩

end Reading

end QdkEc
