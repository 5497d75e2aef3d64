import QdkEc.DeqRuntime.JitPaths

/-!
# The errors of a run of the compiler

This module proves what a compiled error lists: the checks to which an odd number of
reference paths leads from the checks of the error, so that check expansion and error
expansion are adjoint.  This needs that no finished check is referred to an even number
of times where the compiler does not add references but keeps them: at the virtual checks
of an input port, and in errors without unfinished checks.
-/

namespace QdkEc

open List

def readCheck (remoteCheckModels : List RemoteCheckModel) (cid : ℕ) (check : RemoteCheck) :
    Option ExplicitCheck :=
  match check.remoteCheckModel with
  | none => some ⟨cid, check.checkIndex⟩
  | some remoteIndex => do
      let remote ← remoteCheckModels[remoteIndex]?
      let remoteCid ← remote.absoluteCid
      some ⟨remoteCid, check.checkIndex + remote.checkBias⟩

section Lists

variable {K : Type}

def ModelError.Lists (error : ModelError K) (remoteCheckModels : List RemoteCheckModel) (cid : ℕ)
    (target : ExplicitCheck) :
    Prop :=
  ∃ check ∈ error.checks, readCheck remoteCheckModels cid check = some target

def ErrorModelType.ListsPaths (types : JitTypes K) (history : List GadgetRequest) (gid : ℕ)
    (errorModelType : ErrorModelType K) :
    Prop :=
  ∃ request ∈ history, request.gid = gid ∧ ∃ gadgetType,
    types.gadgetTypes.lookup request.gtype = some gadgetType ∧
      List.Forall₂ (fun error jitError => ∀ target,
          error.Lists errorModelType.remoteCheckModels gid target ↔
            Odd (errorPathCount types history.reverse request jitError.references target))
        errorModelType.errors gadgetType.errors

/-- An error names its checks by its references only, and one without unfinished checks refers to a
finished check an odd number of times, or not at all. -/
def JitError.ReferencesOddly (error : JitError K) : Prop :=
  error.base.checks = [] ∧ (error.references.unfinishedChecks = [] →
    ∀ checkIndex ∈ error.references.finishedChecks,
      Odd (error.references.finishedChecks.count checkIndex))

/-- Nothing of a gadget type is referred to an even number of times where references are kept. -/
structure JitGadgetType.RepeatsOddly (gadgetType : JitGadgetType K) : Prop where
  checks : gadgetType.MentionsOddly
  errors : ∀ error ∈ gadgetType.errors, error.ReferencesOddly

end Lists

def IsRemoteCheckModel (cid : ℕ) (remote : RemoteCheckModel) : Prop :=
  remote.absoluteCid = some cid

/-- A check of a compiled error stands for a check of a check model. -/
def CheckRefersTo (sequencer : Sequencer RemoteCheckModel) (currentGid : ℕ) (remote : RemoteCheck)
    (check : ExplicitCheck) :
    Prop :=
  sequencer.RefersTo currentGid remote.remoteCheckModel remote.checkIndex check.cid ∧
    remote.checkIndex = check.checkIndex

section Checks

variable {sequencer : Sequencer RemoteCheckModel} {currentGid : ℕ}

theorem foldl_sequenceCheck (currentGid : ℕ) (hvalid : sequencer.Valid IsRemoteCheckModel)
    (checks : List ExplicitCheck) :
    (checks.foldl (sequenceCheck currentGid) (sequencer, [])).1.Valid IsRemoteCheckModel ∧
      sequencer.Extends (checks.foldl (sequenceCheck currentGid) (sequencer, [])).1 ∧
      List.Forall₂ (CheckRefersTo (checks.foldl (sequenceCheck currentGid) (sequencer, [])).1
        currentGid) (checks.foldl (sequenceCheck currentGid) (sequencer, [])).2 checks := by
  induction checks using List.reverseRecOn with
  | nil => exact ⟨hvalid, .refl sequencer, .nil⟩
  | append_singleton checks check ih =>
    obtain ⟨hvalid', hextends, hemitted⟩ := ih
    rw [foldl_append, foldl_cons, foldl_nil, sequenceCheck]
    split
    · rename_i hlocal
      exact ⟨hvalid', hextends, rel_append hemitted (.cons ⟨.inl ⟨rfl, hlocal⟩, rfl⟩ .nil)⟩
    · rename_i hremote
      have hentry : IsRemoteCheckModel check.cid ⟨none, check.cid, 0, some check.cid, none⟩ := rfl
      obtain ⟨hvalid'', hextends', hid, hbias⟩ := Sequencer.getOrInsert_spec hvalid' check.cid
        check.checkIndex hentry
      refine ⟨hvalid'', hextends.trans hextends', rel_append (hemitted.imp fun _ _ h => ?_)
        (.cons ⟨.inr ⟨_, rfl, hremote, hid, hbias⟩, rfl⟩ .nil)⟩
      exact ⟨h.1.mono hextends', h.2⟩

theorem CheckRefersTo.exists_applyCheckBias_eq (hvalid : sequencer.Valid IsRemoteCheckModel)
    {remote : RemoteCheck} {check : ExplicitCheck}
    (h : CheckRefersTo sequencer currentGid remote check) :
    ∃ biased, applyCheckBias sequencer remote = some biased ∧
      readCheck (finalizeCheckModels sequencer) currentGid biased = some check := by
  obtain ⟨⟨hnone, hcid⟩ | ⟨remoteIndex, hsome, -, hid, hbias⟩, hindex⟩ := h
  · refine ⟨⟨none, remote.checkIndex⟩, ?_, ?_⟩
    · rw [applyCheckBias, hnone]
      rfl
    · rw [readCheck, ← hcid, hindex]
  · refine ⟨⟨some remoteIndex, remote.checkIndex - sequencer.bias remoteIndex⟩, ?_, ?_⟩
    · simp [applyCheckBias, hsome, hvalid.getElem?_minimumIndices hid, hbias]
    · obtain ⟨hlt, hget⟩ := List.getElem?_eq_some_iff.mp hid
      have hlt' : remoteIndex < sequencer.remotes.length := by rwa [← hvalid.remotes.length_eq]
      have hentry := hvalid.remotes.get hlt hlt'
      simp only [readCheck, finalizeCheckModels, List.getElem?_map, List.getElem?_zipIdx,
        getElem?_eq_getElem hlt', Option.map_some, Option.bind_some, Option.bind_eq_bind,
        zero_add]
      rw [show sequencer.remotes[remoteIndex].absoluteCid = some check.cid by
        rw [← hget]; exact hentry]
      rw [Option.bind_some, Nat.sub_add_cancel hbias, hindex]

variable {K : Type}

/-- A compiled error stands for a list of checks: its checks are sorted, and before that they stand
for the list. -/
def ErrorStandsFor (sequencer : Sequencer RemoteCheckModel) (currentGid : ℕ) (error : ModelError K)
    (order : List ExplicitCheck) :
    Prop :=
  ∃ emitted, error.checks.Perm emitted ∧
    List.Forall₂ (CheckRefersTo sequencer currentGid) emitted order

theorem ErrorStandsFor.mono {later : Sequencer RemoteCheckModel} {error : ModelError K}
    {order : List ExplicitCheck} (h : ErrorStandsFor sequencer currentGid error order)
    (hextends : sequencer.Extends later) : ErrorStandsFor later currentGid error order := by
  obtain ⟨emitted, hperm, hemitted⟩ := h
  exact ⟨emitted, hperm, hemitted.imp fun _ _ h => ⟨h.1.mono hextends, h.2⟩⟩

theorem ErrorStandsFor.exists_applyBiasToError_eq (hvalid : sequencer.Valid IsRemoteCheckModel)
    {error : ModelError K} {order : List ExplicitCheck}
    (h : ErrorStandsFor sequencer currentGid error order) :
    ∃ biased, applyBiasToError sequencer error = some biased ∧ ∀ target,
      biased.Lists (finalizeCheckModels sequencer) currentGid target ↔ target ∈ order := by
  obtain ⟨emitted, hperm, hemitted⟩ := h
  obtain ⟨checks, hstands, hperm'⟩ := perm_comp_forall₂ hperm hemitted
  obtain ⟨biased, hbiased, hread⟩ := exists_forall₂_comp
    (hstands.imp fun _ _ hstands => hstands.exists_applyCheckBias_eq hvalid)
  refine ⟨{ error with checks := biased }, ?_, fun target => ?_⟩
  · rw [applyBiasToError, mapM_eq_some_iff.mpr hbiased]
    rfl
  · rw [← hperm'.mem_iff]
    exact (mem_mapM_iff (mapM_eq_some_iff.mpr hread)).symm

variable {outputVirtualChecks : List (Finset ExplicitCheck)}

theorem mem_foldl_symmDiff_singleton_iff (indices : List ℕ) (target : ExplicitCheck) :
    target ∈ indices.foldl (fun checks checkIndex => symmDiff checks {⟨currentGid, checkIndex⟩})
        (∅ : Finset ExplicitCheck) ↔
      Odd (if target.cid = currentGid then indices.count target.checkIndex else 0) := by
  induction indices using List.reverseRecOn with
  | nil => simp
  | append_singleton indices index ih =>
    have hself : target = ⟨currentGid, index⟩ ↔
        target.cid = currentGid ∧ target.checkIndex = index := by
      cases target
      simp
    rw [foldl_append, foldl_cons, foldl_nil, Finset.mem_symmDiff, ih,
      Finset.mem_singleton, hself, count_append, count_singleton]
    by_cases hgid : target.cid = currentGid
    · rw [if_pos hgid, if_pos hgid, and_iff_right hgid]
      by_cases hindex : index = target.checkIndex
      · subst hindex
        simp [Nat.odd_add_one]
      · have hindex' : target.checkIndex ≠ index := Ne.symm hindex
        rw [if_neg (by simpa using hindex), Nat.add_zero]
        simp [hindex']
    · simp [hgid]

/-- The checks of an error are those that it stands for, in some order. -/
def ExpandsTo (outputVirtualChecks : List (Finset ExplicitCheck)) (currentGid : ℕ)
    (references : CheckReferences) (order : List ExplicitCheck) :
    Prop :=
  ∃ checks, JitCompiler.expandErrorChecks outputVirtualChecks currentGid references = some checks ∧
    ∀ target, target ∈ order ↔ target ∈ checks

theorem expandsTo_of_unfinishedChecks_eq_nil {error : JitError K} (hoddly : error.ReferencesOddly)
    (hnil : error.references.unfinishedChecks = []) :
    ExpandsTo outputVirtualChecks currentGid error.references
      (error.references.finishedChecks.map fun checkIndex => ⟨currentGid, checkIndex⟩) := by
  refine ⟨_, by rw [JitCompiler.expandErrorChecks, hnil, foldlM_nil]; rfl, fun target => ?_⟩
  rw [mem_foldl_symmDiff_singleton_iff, mem_map]
  constructor
  · rintro ⟨checkIndex, hmem, rfl⟩
    rw [if_pos rfl]
    exact hoddly.2 hnil checkIndex hmem
  · intro hodd
    split at hodd
    · rename_i hcid
      obtain ⟨cid, checkIndex⟩ := target
      subst hcid
      refine ⟨checkIndex, count_pos_iff.mp (Nat.pos_of_ne_zero fun hzero => ?_), rfl⟩
      rw [hzero] at hodd
      exact Nat.not_odd_zero hodd
    · exact absurd hodd Nat.not_odd_zero

theorem sequenceErrors_spec (hvalid : sequencer.Valid IsRemoteCheckModel)
    {errors : List (JitError K)} (hoddly : ∀ error ∈ errors, error.ReferencesOddly)
    {orders : List (List ExplicitCheck)}
    {sequenced : Sequencer RemoteCheckModel × List (ModelError K)}
    (hrun : JitCompiler.sequenceErrors currentGid outputVirtualChecks sequencer errors orders =
      some sequenced) : sequenced.1.Valid IsRemoteCheckModel ∧ sequencer.Extends sequenced.1 ∧
      List.Forall₂
        (fun error jitError => ∃ order, ErrorStandsFor sequenced.1 currentGid error order ∧
        ExpandsTo outputVirtualChecks currentGid jitError.references order) sequenced.2 errors := by
  induction errors generalizing sequencer orders sequenced with
  | nil =>
    cases orders with
    | nil =>
      cases hrun
      exact ⟨hvalid, .refl sequencer, .nil⟩
    | cons order orders => cases hrun
  | cons error errors ih =>
    have hself := hoddly error mem_cons_self
    have hrest := fun error' herror => hoddly error' (mem_cons_of_mem error herror)
    rw [JitCompiler.sequenceErrors.eq_def] at hrun
    dsimp only at hrun
    split at hrun
    · rename_i hnil
      obtain ⟨finished, hfinished, hrun⟩ := Option.bind_eq_some_iff.mp hrun
      cases hrun
      obtain ⟨hvalid', hextends, herrors⟩ := ih hvalid hrest hfinished
      refine ⟨hvalid', hextends, .cons ⟨_, ⟨_, .refl _, ?_⟩,
        expandsTo_of_unfinishedChecks_eq_nil hself hnil⟩ herrors⟩
      rw [finishedOnlyToBinError, hself.1, nil_append, forall₂_map_left_iff,
        forall₂_map_right_iff]
      exact forall₂_same.mpr fun _ _ => ⟨.inl ⟨rfl, rfl⟩, rfl⟩
    · cases orders with
      | nil => cases hrun
      | cons order orders =>
        obtain ⟨checks, hchecks, hrun⟩ := Option.bind_eq_some_iff.mp hrun
        obtain ⟨_, hguard, hrun⟩ := Option.bind_eq_some_iff.mp hrun
        obtain ⟨finished, hfinished, hrun⟩ := Option.bind_eq_some_iff.mp hrun
        cases hrun
        have henumerates : Enumerates order checks := (Option.guard_eq_some' _).mp hguard
        obtain ⟨hvalid', hextends, hstands⟩ := foldl_sequenceCheck currentGid
          hvalid order
        rw [explicitChecksToBinError, hself.1] at hfinished
        obtain ⟨hvalid'', hextends', herrors⟩ := ih hvalid' hrest hfinished
        refine ⟨hvalid'', hextends.trans hextends', .cons ⟨order, ?_, checks, hchecks, ?_⟩
          herrors⟩
        · refine ErrorStandsFor.mono ⟨_, ?_, hstands⟩ hextends'
          rw [explicitChecksToBinError, hself.1]
          exact perm_insertionSort _ _
        · intro target
          rw [← henumerates.2, mem_toFinset]

theorem buildErrorModelType_lists {errors : List (JitError K)}
    (hoddly : ∀ error ∈ errors, error.ReferencesOddly) {orders : List (List ExplicitCheck)}
    {errorModelType : ErrorModelType K}
    (hbuild : JitCompiler.buildErrorModelType currentGid errors outputVirtualChecks orders =
      some errorModelType) : List.Forall₂ (fun error jitError => ∃ checks,
        JitCompiler.expandErrorChecks outputVirtualChecks currentGid jitError.references =
          some checks ∧
        ∀ target, error.Lists errorModelType.remoteCheckModels currentGid target ↔ target ∈ checks)
      errorModelType.errors errors := by
  obtain ⟨sequenced, hsequenced, hbuild⟩ := Option.bind_eq_some_iff.mp hbuild
  obtain ⟨biased, hbiased, hbuild⟩ := Option.bind_eq_some_iff.mp hbuild
  cases hbuild
  obtain ⟨hvalid, -, herrors⟩ := sequenceErrors_spec (Sequencer.valid_new IsRemoteCheckModel)
    hoddly hsequenced
  have happly := (mapM_eq_some_iff.mp hbiased).flip
  refine (forall₂_comp happly herrors).imp fun error jitError h => ?_
  obtain ⟨emitted, hbiased, order, hstands, checks, hchecks, hmem⟩ := h
  obtain ⟨biased, hbiased', hlists⟩ := hstands.exists_applyBiasToError_eq hvalid
  rw [hbiased] at hbiased'
  cases hbiased'
  exact ⟨checks, hchecks, fun target => (hlists target).trans (hmem target)⟩

end Checks

section Expand

variable {K : Type} {types : JitTypes K} {history : List GadgetRequest}

/-- The gadgets of a history refer to nothing an even number of times where references are kept. -/
def RepeatOddly (types : JitTypes K) (history : List GadgetRequest) : Prop :=
  ∀ request ∈ history, ∀ gadgetType, types.gadgetTypes.lookup request.gtype = some gadgetType →
    gadgetType.RepeatsOddly

theorem mem_expandErrorChecks_iff (hfitted : Fitted types history)
    (hoddly : RepeatOddly types history) {source : GadgetRequest}
    {outputVirtualChecks : List (Finset ExplicitCheck)}
    (hresolves : ResolveTo types history source outputVirtualChecks) {references : CheckReferences}
    {checks : Finset ExplicitCheck}
    (hexpand : JitCompiler.expandErrorChecks outputVirtualChecks source.gid references =
      some checks) (target : ExplicitCheck) :
    target ∈ checks ↔ Odd (errorPathCount types history.reverse source references target) := by
  obtain ⟨hfound, rfl⟩ := foldlM_symmDiff_eq hexpand
  refine mem_foldl_symmDiff_iff (fun index hindex => ?_)
    (mem_foldl_symmDiff_singleton_iff references.finishedChecks target)
  exact (hresolves index _ (hfound index hindex)).mem_iff hfitted
    (fun request hrequest gadgetType htype => (hoddly request hrequest gadgetType htype).checks)
    target

theorem ErrorModelType.BuiltFrom.listsPaths (hfitted : Fitted types history)
    (hoddly : RepeatOddly types history) {gid : ℕ} {errorModelType : ErrorModelType K}
    (hbuilt : errorModelType.BuiltFrom types history gid) :
    errorModelType.ListsPaths types history gid := by
  obtain ⟨source, hsource, rfl, gadgetType, htype, resolved, orders, -, hresolves, hbuild⟩ := hbuilt
  refine ⟨source, hsource, rfl, gadgetType, htype,
    (buildErrorModelType_lists (hoddly source hsource gadgetType htype).errors hbuild).imp
      fun error jitError h target => ?_⟩
  obtain ⟨checks, hexpand, hlists⟩ := h
  exact (hlists target).trans (mem_expandErrorChecks_iff hfitted hoddly hresolves hexpand target)

end Expand

/-- Compiled errors list the checks to which an odd number of paths leads, in every run whose
gadgets refer to nothing an even number of times where references are kept. -/
theorem errorModelTypes_listPaths {K : Type} {libraries : List (JitLibrary K)} {types : JitTypes K}
    (hload : libraries.foldlM JitTypes.loadLibrary (JitTypes.empty K) = some types)
    {events : List (JitEvent K)} {run : JitRun K} (hrun : JitRun.run types events = some run)
    (hoddly : RepeatOddly types run.history) {gid : ℕ} {errorModelType : ErrorModelType K}
    (hlookup : run.errorModelTypes.lookup gid = some errorModelType) :
    errorModelType.ListsPaths types run.history gid := by
  have hcache : types.CacheCorrect := foldlM_induction (fun _ types => types.CacheCorrect)
    (JitTypes.cacheCorrect_empty K) (fun _ _ _ _ hcache hload => hcache.loadLibrary hload) hload
  have hresolving := JitRun.resolving_of_run ⟨rfl, rfl⟩ hcache hrun
  exact (hresolving.compiled gid errorModelType hlookup).listsPaths hresolving.fitted hoddly

def JitGadgetType.RepeatsNothing {K : Type} (gadgetType : JitGadgetType K) : Prop :=
  (∀ check ∈ gadgetType.finishedChecks, check.measurements.Nodup) ∧
    ∀ error ∈ gadgetType.errors,
      error.base.checks.length = 0 ∧ error.references.finishedChecks.Nodup

instance
    {K : Type}
    (gadgetType : JitGadgetType K) :
    Decidable gadgetType.RepeatsNothing :=
  inferInstanceAs (Decidable (_ ∧ _))

theorem JitGadgetType.RepeatsNothing.repeatsOddly {K : Type} {gadgetType : JitGadgetType K}
    (h : gadgetType.RepeatsNothing) : gadgetType.RepeatsOddly where
  checks check hcheck port index hne := by
    have hle := nodup_iff_count_le_one.mp (h.1 check hcheck) ⟨some port, index⟩
    have hone : check.mentions port index = 1 := le_antisymm hle (Nat.pos_of_ne_zero hne)
    rw [hone]
    exact odd_one
  errors error herror := by
    refine ⟨length_eq_zero_iff.mp (h.2 error herror).1, fun _ checkIndex hmem => ?_⟩
    rw [count_eq_one_of_mem (h.2 error herror).2 hmem]
    exact odd_one

def sourceSinkErrorEvents : List (JitEvent ℚ) :=
  sourceSinkEvents ++ [.advance 7 [], .advance 7 [[⟨8, 0⟩]]]

def sourceSinkErrorRun : JitRun ℚ :=
  (JitRun.run sourceSinkTypes sourceSinkErrorEvents).get (by decide +kernel)

theorem run_sourceSinkError :
    JitRun.run sourceSinkTypes sourceSinkErrorEvents = some sourceSinkErrorRun := by
  rw [sourceSinkErrorRun, Option.some_get]

theorem lookup_sourceSinkError : sourceSinkErrorRun.errorModelTypes.lookup 7 =
      some ⟨7, wildcard, [⟨none, 8, 0, some 8, none⟩], [⟨[⟨some 0, 0⟩], 0, [], []⟩]⟩ := by
  decide +kernel

theorem repeatOddly_sourceSink : RepeatOddly sourceSinkTypes sourceSinkErrorRun.history := by
  have hentries : ∀ entry ∈ sourceSinkTypes.gadgetTypes.entries, entry.2.RepeatsNothing := by
    decide +kernel
  intro request _ gadgetType htype
  exact (hentries _ (AList.mem_lookup_iff.mp htype)).repeatsOddly

/-- The error of the source lists the check of the sink. -/
theorem errorModelTypes_listPaths_sourceSink :
    ErrorModelType.ListsPaths sourceSinkTypes sourceSinkErrorRun.history 7
      ⟨7, wildcard, [⟨none, 8, 0, some 8, none⟩], [⟨[⟨some 0, 0⟩], 0, [], []⟩]⟩ :=
  errorModelTypes_listPaths loadLibrary_sourceSink run_sourceSinkError repeatOddly_sourceSink
    lookup_sourceSinkError

/-- A library with a gadget type whose error refers to its check twice. -/
def repeatedCheckLibrary : JitLibrary ℚ where
  portTypes := []
  gadgetTypes := [⟨⟨1, ⟨[], [], 1, 0, none, none, none, none⟩, [], none, false⟩,
    [⟨false, [⟨none, 0⟩]⟩], [], [⟨⟨[], 0, [], []⟩, [0, 0], []⟩]⟩]

/-- The loaded type of a gadget whose error refers to its check twice. -/
def repeatedCheckTypes : JitTypes ℚ :=
  ([repeatedCheckLibrary].foldlM JitTypes.loadLibrary (JitTypes.empty ℚ)).get (by decide +kernel)

/-- A gadget is compiled, and then its errors. -/
def repeatedCheckEvents : List (JitEvent ℚ) :=
  [.compile ⟨some ⟨7, 1, [], none⟩, none⟩ [[⟨7, 0⟩]], .advance 7 []]

/-- The run in which the error that refers to its check twice is compiled. -/
def repeatedCheckRun : JitRun ℚ :=
  (JitRun.run repeatedCheckTypes repeatedCheckEvents).get (by decide +kernel)

theorem errorPathCount_repeatedCheck :
    ∀ request ∈ repeatedCheckRun.history, ∀ entry ∈ repeatedCheckTypes.gadgetTypes.entries,
      ∀ error ∈ entry.2.errors, errorPathCount repeatedCheckTypes repeatedCheckRun.history.reverse
        request error.references ⟨7, 0⟩ = 2 := by
  decide +kernel

/-- Expansions are not adjoint in every run: an error that refers to its check twice lists it. -/
theorem errorModelTypes_not_listPaths :
    ∃ (libraries : List (JitLibrary ℚ)) (types : JitTypes ℚ) (events : List (JitEvent ℚ))
      (run : JitRun ℚ) (errorModelType : ErrorModelType ℚ),
        libraries.foldlM JitTypes.loadLibrary (JitTypes.empty ℚ) = some types ∧
          JitRun.run types events = some run ∧ run.errorModelTypes.lookup 7 = some errorModelType ∧
            ¬errorModelType.ListsPaths types run.history 7 := by
  refine ⟨[repeatedCheckLibrary], repeatedCheckTypes, repeatedCheckEvents, repeatedCheckRun,
    ⟨7, wildcard, [], [⟨[⟨none, 0⟩, ⟨none, 0⟩], 0, [], []⟩]⟩, ?_, ?_, by decide +kernel, ?_⟩
  · rw [repeatedCheckTypes, Option.some_get]
  · rw [repeatedCheckRun, Option.some_get]
  · rintro ⟨request, hrequest, -, gadgetType, htype, herrors⟩
    have hcount := errorPathCount_repeatedCheck request hrequest _ (AList.mem_lookup_iff.mp htype)
    cases herrors' : gadgetType.errors with
    | nil =>
      rw [herrors'] at herrors
      cases herrors
    | cons error rest =>
      rw [herrors'] at herrors hcount
      obtain _ | ⟨hlists, -⟩ := herrors
      have hodd := (hlists ⟨7, 0⟩).mp ⟨⟨none, 0⟩, mem_cons_self, rfl⟩
      rw [hcount error mem_cons_self] at hodd
      exact absurd hodd (by decide)

end QdkEc
