import QdkEc.DeqRuntime.JitOrders

/-!
# Remote entries that are used

This module proves that a compiled type has exactly the remote entries that its checks or
its errors refer to.  Two types with the same checks, or with the same errors, therefore
have equally many of them, and reroutes that give each of them anew do not depend on what
was there before.
-/

namespace QdkEc

open List Option

namespace Sequencer

variable {A : Type} {sequencer : Sequencer A}

/-- A sequencer has a remote entry and a least index for each owner. -/
structure Aligned (sequencer : Sequencer A) : Prop where
  remotes : sequencer.remotes.length = sequencer.ids.length
  minimumIndices : sequencer.minimumIndices.length = sequencer.ids.length

theorem aligned_new : (new : Sequencer A).Aligned :=
  ⟨rfl, rfl⟩

theorem Aligned.getOrInsert (h : sequencer.Aligned) (id index : ℕ) (remote : A) :
    (sequencer.getOrInsert id index remote).1.Aligned := by
  by_cases hmem : id ∈ sequencer.ids
  · rw [getOrInsert_of_mem hmem]
    exact ⟨h.remotes, (length_modify _ _ _).trans h.minimumIndices⟩
  · rw [getOrInsert_of_notMem hmem]
    exact ⟨by simp [h.remotes], by simp [h.minimumIndices]⟩

theorem lt_or_eq_getOrInsert {id index remoteIndex : ℕ} {remote : A}
    (hlt : remoteIndex < (sequencer.getOrInsert id index remote).1.ids.length) :
    remoteIndex < sequencer.ids.length ∨
      remoteIndex = (sequencer.getOrInsert id index remote).2 := by
  by_cases hmem : id ∈ sequencer.ids
  · rw [getOrInsert_of_mem hmem] at hlt
    exact .inl hlt
  · rw [getOrInsert_of_notMem hmem] at hlt ⊢
    rw [length_append, length_singleton] at hlt
    exact Nat.lt_succ_iff_lt_or_eq.mp hlt

end Sequencer

namespace Sequencing

variable {X A Y : Type} {sequencing : Sequencing X A Y} {sequenced : Sequencer A × List Y}

theorem aligned_foldl (h : sequenced.1.Aligned) (xs : List X) :
    (xs.foldl sequencing.step sequenced).1.Aligned := by
  induction xs generalizing sequenced with
  | nil => exact h
  | cons x xs ih =>
    refine ih ?_
    rw [step]
    split
    · exact h
    · exact h.getOrInsert _ _ _

theorem mem_foldl {y : Y} (hy : y ∈ sequenced.2) (xs : List X) :
    y ∈ (xs.foldl sequencing.step sequenced).2 := by
  induction xs generalizing sequenced with
  | nil => exact hy
  | cons x xs ih =>
    refine ih ?_
    rw [step]
    split
    · exact mem_append_left _ hy
    · exact mem_append_left _ hy

theorem exists_emit {remoteIndex : ℕ} (xs : List X)
    (hlt : remoteIndex < (xs.foldl sequencing.step sequenced).1.ids.length) :
    remoteIndex < sequenced.1.ids.length ∨
      ∃ x, sequencing.emit x (some remoteIndex) ∈ (xs.foldl sequencing.step sequenced).2 := by
  induction xs generalizing sequenced with
  | nil => exact .inl hlt
  | cons x xs ih =>
    rcases ih hlt with hold | hnew
    · rw [step] at hold
      split at hold
      · exact .inl hold
      · rename_i hremote
        rcases Sequencer.lt_or_eq_getOrInsert hold with hold | heq
        · exact .inl hold
        · refine .inr ⟨x, mem_foldl ?_ xs⟩
          rw [step, if_neg hremote, heq]
          exact mem_append_right _ mem_cons_self
    · exact .inr hnew

end Sequencing

/-- The remote indices that checks refer to. -/
def checkRemotes (checks : List Check) : List (Option ℕ) :=
  checks.flatMap fun check => check.measurements.map RemoteMeasurement.remoteGadget

def CheckModelType.UsesRemotes (checkModelType : CheckModelType) : Prop :=
  ∀ remoteIndex, remoteIndex < checkModelType.remoteGadgets.length ↔
    some remoteIndex ∈ checkRemotes checkModelType.checks

section Checks

variable {gid : ℕ} {gtypeOf : ℕ → Option ℕ}

variable {sequencer : Sequencer RemoteGadget}

theorem sequenceChecks_remotes (haligned : sequencer.Aligned)
    {expanded : List (Finset ExplicitMeasurement × Bool)} {orders : List (List ExplicitMeasurement)}
    {sequenced : Sequencer RemoteGadget × List Check}
    (hrun : JitCompiler.sequenceChecks gid gtypeOf sequencer expanded orders = some sequenced) :
    sequenced.1.Aligned ∧ ∀ remoteIndex < sequenced.1.ids.length,
      remoteIndex < sequencer.ids.length ∨ some remoteIndex ∈ checkRemotes sequenced.2 := by
  induction expanded generalizing sequencer orders sequenced with
  | nil =>
    cases orders with
    | nil =>
      cases hrun
      exact ⟨haligned, fun _ hlt => .inl hlt⟩
    | cons order orders => cases hrun
  | cons set rest ih =>
    cases orders with
    | nil => cases hrun
    | cons order orders =>
      obtain ⟨_, -, hrun⟩ := bind_eq_some_iff.mp hrun
      obtain ⟨⟨middle, check⟩, hcheck, hrun⟩ := bind_eq_some_iff.mp hrun
      obtain ⟨finished, hfinished, hrun⟩ := bind_eq_some_iff.mp hrun
      cases hrun
      obtain ⟨emitted, hemitted, hcheck⟩ := bind_eq_some_iff.mp hcheck
      cases hcheck
      have hfold : order.foldl
          (measurementSequencing gid fun peer => (gtypeOf peer).getD 0).step (sequencer, []) =
            emitted :=
        foldlM_sequenceMeasurement_eq (fun _ _ h => by rw [h, getD_some]) hemitted
      have hmiddle : emitted.1.Aligned := by
        rw [← hfold]
        exact Sequencing.aligned_foldl haligned order
      obtain ⟨hafter, hrest⟩ := ih hmiddle hfinished
      refine ⟨hafter, fun remoteIndex hlt => ?_⟩
      rcases hrest remoteIndex hlt with hlt | hmem
      · rw [← hfold] at hlt
        rcases Sequencing.exists_emit order hlt with hlt | ⟨measurement, hmem⟩
        · exact .inl hlt
        · rw [hfold] at hmem
          refine .inr (mem_flatMap.mpr ⟨_, mem_cons_self, mem_map.mpr
            ⟨_, (perm_insertionSort _ _).mem_iff.mpr hmem, rfl⟩⟩)
      · exact .inr (mem_append_right _ hmem)

theorem applyMeasurementBias_remoteGadget {measurement biased : RemoteMeasurement}
    (h : applyMeasurementBias sequencer measurement = some biased) :
    biased.remoteGadget = measurement.remoteGadget ∧ ∀ remoteIndex ∈ measurement.remoteGadget,
        remoteIndex < sequencer.minimumIndices.length := by
  rw [applyMeasurementBias] at h
  split at h
  · rename_i hnone
    cases h
    exact ⟨rfl, by simp [hnone]⟩
  · rename_i remoteIndex hsome
    obtain ⟨bias, hbias, h⟩ := bind_eq_some_iff.mp h
    obtain ⟨_, -, h⟩ := bind_eq_some_iff.mp h
    cases h
    refine ⟨rfl, fun index hindex => ?_⟩
    rw [hsome] at hindex
    cases hindex
    exact (List.getElem?_eq_some_iff.mp hbias).1

theorem applyBiasToCheck_remotes {check biased : Check}
    (h : applyBiasToCheck sequencer check = some biased) :
    biased.measurements.map RemoteMeasurement.remoteGadget =
        check.measurements.map RemoteMeasurement.remoteGadget ∧
      ∀ remoteIndex, some remoteIndex ∈ check.measurements.map RemoteMeasurement.remoteGadget →
        remoteIndex < sequencer.minimumIndices.length := by
  obtain ⟨measurements, hmeasurements, h⟩ := bind_eq_some_iff.mp h
  cases h
  refine ⟨map_eq_of_mapM (fun _ _ h => (applyMeasurementBias_remoteGadget h).1) hmeasurements,
    fun remoteIndex hmem => ?_⟩
  obtain ⟨measurement, hmeasurement, hremote⟩ := mem_map.mp hmem
  have hsome := isSome_mapM_iff.mp (isSome_of_mem hmeasurements) measurement hmeasurement
  obtain ⟨biased, hbiased⟩ := isSome_iff_exists.mp hsome
  exact (applyMeasurementBias_remoteGadget hbiased).2 remoteIndex hremote

theorem buildCheckModelType_usesRemotes {gtype : ℕ}
    {expanded : List (Finset ExplicitMeasurement × Bool)} {orders : List (List ExplicitMeasurement)}
    {checkModelType : CheckModelType}
    (hbuild : JitCompiler.buildCheckModelType gid gtype gtypeOf expanded orders =
      some checkModelType) : checkModelType.UsesRemotes := by
  obtain ⟨sequenced, hsequenced, hbuild⟩ := bind_eq_some_iff.mp hbuild
  obtain ⟨checks, hchecks, hbuild⟩ := bind_eq_some_iff.mp hbuild
  cases hbuild
  obtain ⟨haligned, hemitted⟩ := sequenceChecks_remotes Sequencer.aligned_new hsequenced
  have hremotes : checkRemotes checks = checkRemotes sequenced.2 := by
    rw [checkRemotes, checkRemotes, flatMap_def, flatMap_def,
      map_eq_of_mapM (fun _ _ h => (applyBiasToCheck_remotes h).1) hchecks]
  intro remoteIndex
  rw [finalizeGadgets, length_map, length_zipIdx, haligned.remotes, hremotes]
  refine ⟨fun hlt => (hemitted remoteIndex hlt).resolve_left (Nat.not_lt_zero _), fun hmem => ?_⟩
  obtain ⟨check, hcheck, hmem⟩ := mem_flatMap.mp hmem
  have hsome := isSome_mapM_iff.mp (isSome_of_mem hchecks) check hcheck
  obtain ⟨biased, hbiased⟩ := isSome_iff_exists.mp hsome
  rw [← haligned.minimumIndices]
  exact (applyBiasToCheck_remotes hbiased).2 remoteIndex hmem

end Checks

section Errors

variable {K : Type} {gid : ℕ}

/-- The remote indices that errors refer to. -/
def errorRemotes (errors : List (ModelError K)) : List (Option ℕ) :=
  errors.flatMap fun error => error.checks.map RemoteCheck.remoteCheckModel

def ErrorModelType.UsesRemotes (errorModelType : ErrorModelType K) : Prop :=
  ∀ remoteIndex, remoteIndex < errorModelType.remoteCheckModels.length ↔
    some remoteIndex ∈ errorRemotes errorModelType.errors

variable {sequencer : Sequencer RemoteCheckModel}

theorem sequenceErrors_remotes {outputVirtualChecks : List (Finset ExplicitCheck)}
    (haligned : sequencer.Aligned) {errors : List (JitError K)} {orders : List (List ExplicitCheck)}
    {sequenced : Sequencer RemoteCheckModel × List (ModelError K)}
    (hrun : JitCompiler.sequenceErrors gid outputVirtualChecks sequencer errors orders =
      some sequenced) : sequenced.1.Aligned ∧ ∀ remoteIndex < sequenced.1.ids.length,
      remoteIndex < sequencer.ids.length ∨ some remoteIndex ∈ errorRemotes sequenced.2 := by
  induction errors generalizing sequencer orders sequenced with
  | nil =>
    cases orders with
    | nil =>
      cases hrun
      exact ⟨haligned, fun _ hlt => .inl hlt⟩
    | cons order orders => cases hrun
  | cons error errors ih =>
    rw [JitCompiler.sequenceErrors.eq_def] at hrun
    dsimp only at hrun
    split at hrun
    · obtain ⟨finished, hfinished, hrun⟩ := bind_eq_some_iff.mp hrun
      cases hrun
      obtain ⟨hafter, hrest⟩ := ih haligned hfinished
      exact ⟨hafter, fun remoteIndex hlt => (hrest remoteIndex hlt).imp_right
        (mem_append_right _)⟩
    · cases orders with
      | nil => cases hrun
      | cons order orders =>
        obtain ⟨checks, -, hrun⟩ := bind_eq_some_iff.mp hrun
        obtain ⟨_, -, hrun⟩ := bind_eq_some_iff.mp hrun
        obtain ⟨finished, hfinished, hrun⟩ := bind_eq_some_iff.mp hrun
        cases hrun
        have hmiddle : (explicitChecksToBinError sequencer error order gid).1.Aligned :=
          (checkSequencing gid).aligned_foldl haligned order
        obtain ⟨hafter, hrest⟩ := ih hmiddle hfinished
        refine ⟨hafter, fun remoteIndex hlt => ?_⟩
        rcases hrest remoteIndex hlt with hlt | hmem
        · rcases (checkSequencing gid).exists_emit order hlt with hlt | ⟨check, hmem⟩
          · exact .inl hlt
          · exact .inr (mem_flatMap.mpr ⟨_, mem_cons_self, mem_map.mpr
              ⟨_, (perm_insertionSort _ _).mem_iff.mpr hmem, rfl⟩⟩)
        · exact .inr (mem_append_right _ hmem)

theorem applyCheckBias_remoteCheckModel
    {check biased : RemoteCheck} (h : applyCheckBias sequencer check = some biased) :
    biased.remoteCheckModel = check.remoteCheckModel ∧
      ∀ remoteIndex ∈ check.remoteCheckModel, remoteIndex < sequencer.minimumIndices.length := by
  obtain ⟨bias, hbias, h⟩ := bind_eq_some_iff.mp h
  obtain ⟨_, -, h⟩ := bind_eq_some_iff.mp h
  cases h
  refine ⟨rfl, fun remoteIndex hremote => ?_⟩
  rw [mem_def.mp hremote] at hbias
  exact (List.getElem?_eq_some_iff.mp hbias).1

theorem applyBiasToError_remotes
    {error biased : ModelError K} (h : applyBiasToError sequencer error = some biased) :
    biased.checks.map RemoteCheck.remoteCheckModel = error.checks.map RemoteCheck.remoteCheckModel ∧
      ∀ remoteIndex, some remoteIndex ∈ error.checks.map RemoteCheck.remoteCheckModel →
        remoteIndex < sequencer.minimumIndices.length := by
  obtain ⟨checks, hchecks, h⟩ := bind_eq_some_iff.mp h
  cases h
  refine ⟨map_eq_of_mapM (fun _ _ h => (applyCheckBias_remoteCheckModel h).1) hchecks,
    fun remoteIndex hmem => ?_⟩
  obtain ⟨check, hcheck, hremote⟩ := mem_map.mp hmem
  have hsome := isSome_mapM_iff.mp (isSome_of_mem hchecks) check hcheck
  obtain ⟨biased, hbiased⟩ := isSome_iff_exists.mp hsome
  exact (applyCheckBias_remoteCheckModel hbiased).2 remoteIndex hremote

theorem buildErrorModelType_usesRemotes {errors : List (JitError K)}
    {outputVirtualChecks : List (Finset ExplicitCheck)} {orders : List (List ExplicitCheck)}
    {errorModelType : ErrorModelType K}
    (hbuild : JitCompiler.buildErrorModelType gid errors outputVirtualChecks orders =
      some errorModelType) : errorModelType.UsesRemotes := by
  obtain ⟨sequenced, hsequenced, hbuild⟩ := bind_eq_some_iff.mp hbuild
  obtain ⟨biased, hbiased, hbuild⟩ := bind_eq_some_iff.mp hbuild
  cases hbuild
  obtain ⟨haligned, hemitted⟩ := sequenceErrors_remotes Sequencer.aligned_new hsequenced
  have hremotes : errorRemotes biased = errorRemotes sequenced.2 := by
    rw [errorRemotes, errorRemotes, flatMap_def, flatMap_def,
      map_eq_of_mapM (fun _ _ h => (applyBiasToError_remotes h).1) hbiased]
  intro remoteIndex
  rw [finalizeCheckModels, length_map, length_zipIdx, haligned.remotes, hremotes]
  refine ⟨fun hlt => (hemitted remoteIndex hlt).resolve_left (Nat.not_lt_zero _), fun hmem => ?_⟩
  obtain ⟨error, herror, hmem⟩ := mem_flatMap.mp hmem
  have hsome := isSome_mapM_iff.mp (isSome_of_mem hbiased) error herror
  obtain ⟨biased', hbiased'⟩ := isSome_iff_exists.mp hsome
  rw [← haligned.minimumIndices]
  exact (applyBiasToError_remotes hbiased').2 remoteIndex hmem

end Errors

theorem length_eq_of_forall_lt_iff {A B : Type} {l : List A} {l' : List B} {P : ℕ → Prop}
    (h : ∀ i, i < l.length ↔ P i) (h' : ∀ i, i < l'.length ↔ P i) : l.length = l'.length := by
  have hlt := fun i => (h i).trans (h' i).symm
  have hle := hlt l.length
  have hge := hlt l'.length
  omega

theorem foldlM_applyRemoteReroute_congr {A : Type} (kind : String)
    (done rest rest' : List (Option A)) (entries : List A) (hrest : rest.length = entries.length)
    (hrest' : rest'.length = entries.length) :
    ((entries.zipIdx done.length).map fun entry => (entry.2, some entry.1)).foldlM
        (applyRemoteReroute kind) (done ++ rest) =
      ((entries.zipIdx done.length).map fun entry => (entry.2, some entry.1)).foldlM
        (applyRemoteReroute kind) (done ++ rest') := by
  induction entries generalizing done rest rest' with
  | nil => rw [length_eq_zero_iff.mp hrest, length_eq_zero_iff.mp hrest']
  | cons entry entries ih =>
    obtain ⟨old, rest, rfl⟩ := exists_cons_of_length_eq_add_one hrest
    obtain ⟨old', rest', rfl⟩ := exists_cons_of_length_eq_add_one hrest'
    rw [zipIdx_cons, map_cons, foldlM_cons, foldlM_cons]
    have hset : ∀ (old : Option A) (rest : List (Option A)),
        applyRemoteReroute kind (done ++ old :: rest) (done.length, some entry) =
          if remoteRerouteIndexLimit ≤ done.length then
            .error (s!"{kind} reroute index {done.length} must be less than " ++
              s!"{remoteRerouteIndexLimit}")
          else .ok ((done ++ [some entry]) ++ rest) := by
      intro old rest
      have hmissing : done.length + 1 - (done ++ old :: rest).length = 0 := by simp
      rw [applyRemoteReroute, hmissing]
      split
      · rfl
      · simp
    rw [hset, hset]
    split
    · rfl
    · have hnext := ih (done ++ [some entry]) rest rest' (Nat.succ_injective hrest)
        (Nat.succ_injective hrest')
      rwa [length_append, length_singleton] at hnext

theorem applyRemoteReroutes_congr {A : Type} {base entries : List A}
    (hlength : base.length = entries.length) (kind : String) :
    applyRemoteReroutes base (entries.zipIdx.map fun entry => (entry.2, some entry.1)) kind =
      applyRemoteReroutes entries (entries.zipIdx.map fun entry => (entry.2, some entry.1))
        kind := by
  exact foldlM_applyRemoteReroute_congr kind [] _ _ entries (by rw [length_map, hlength])
    (by rw [length_map])

end QdkEc
