import QdkEc.DeqRuntime.JitOrders

/-!
# Runs in another order

This module compares two runs that compile the same gadgets, in whatever order and with
whatever events in between.  What is met when a check is unfolded does not depend on the
order, so the finished checks of a gadget are expanded to the same sets in both runs, and
its unfinished checks are resolved to the same sets.
-/

namespace QdkEc

open List Option

variable {request : GadgetRequest} {gid : ℕ}

section Unfold

variable {K : Type} {types : JitTypes K} {history history' : List GadgetRequest}

theorem unfoldCheck_congr {unfoldPeer unfoldPeer' : ℕ → ℕ → ℕ → List Reference}
    (h : ∀ connector ∈ request.connectors, ∀ port index,
      unfoldPeer connector.gid port index = unfoldPeer' connector.gid port index)
    (check : JitCheck) :
    unfoldCheck unfoldPeer request check = unfoldCheck unfoldPeer' request check := by
  refine flatMap_congr fun measurement _ => ?_
  cases measurement.inputPort with
  | none => rfl
  | some inputPort =>
    rw [elim_some, elim_some]
    cases hconnector : request.connectors[inputPort]? with
    | none => rfl
    | some connector => exact h connector (mem_of_getElem? hconnector) _ _

theorem Fitted.exists_source (hfitted : Fitted types history)
    (hrequest : request ∈ history) {connector : Connector}
    (hconnector : connector ∈ request.connectors) :
    ∃ source ∈ history, source.gid = connector.gid := by
  obtain ⟨_, _, -, -, hwidths⟩ := hfitted.widths request hrequest
  obtain ⟨inputPort, hget⟩ := getElem?_of_mem hconnector
  obtain ⟨source, hsource, hgid, -⟩ := hwidths inputPort connector hget
  exact ⟨source, hsource, hgid⟩

theorem Fitted.of_cons {newest : GadgetRequest} (hfitted : Fitted types (newest :: history)) :
    Fitted types history where
  nodup := (nodup_cons.mp hfitted.nodup).2
  older := (pairwise_cons.mp hfitted.older).2
  other request hrequest := hfitted.other request (mem_cons_of_mem _ hrequest)
  unique request hrequest request' hrequest' := hfitted.unique request
    (mem_cons_of_mem _ hrequest) request' (mem_cons_of_mem _ hrequest')
  widths request hrequest := by
    obtain ⟨gadgetType, inputMap, htype, hmap, hwidths⟩ :=
      hfitted.widths request (mem_cons_of_mem _ hrequest)
    refine ⟨gadgetType, inputMap, htype, hmap, fun inputPort connector hconnector => ?_⟩
    obtain ⟨source, hsource, hgid, h⟩ := hwidths inputPort connector hconnector
    refine ⟨source, (mem_cons.mp hsource).resolve_left ?_, hgid, h⟩
    rintro rfl
    exact (pairwise_cons.mp hfitted.older).1 request hrequest connector
      (mem_of_getElem? hconnector) hgid.symm

theorem Fitted.exists_older {newest : GadgetRequest} (hfitted : Fitted types (newest :: history))
    {connector : Connector} (hconnector : connector ∈ newest.connectors) :
    ∃ source ∈ history, source.gid = connector.gid := by
  obtain ⟨source, hsource, hgid⟩ := hfitted.exists_source mem_cons_self hconnector
  refine ⟨source, (mem_cons.mp hsource).resolve_left ?_, hgid⟩
  rintro rfl
  exact hfitted.other source mem_cons_self connector hconnector hgid.symm

section

variable (hfitted : Fitted types history)

include hfitted

theorem Fitted.unfoldVirtual_eq
    (hrequest : request ∈ history) (port index : ℕ) :
    unfoldVirtual types history request.gid port index =
      (types.gadgetTypes.lookup request.gtype).elim [] fun gadgetType =>
        .unfinishedCheck request.gid (virtualIndex types gadgetType port index) ::
          (gadgetType.unfinishedChecks[virtualIndex types gadgetType port index]?).elim []
            (unfoldCheck (unfoldVirtual types history) request) := by
  induction history with
  | nil => cases hrequest
  | cons newest history ih =>
    have hunfold : ∀ connector ∈ request.connectors, newest.gid ≠ connector.gid := by
      intro connector hconnector heq
      rcases mem_cons.mp hrequest with rfl | hrequest
      · exact hfitted.other request mem_cons_self connector hconnector heq.symm
      · exact (pairwise_cons.mp hfitted.older).1 request hrequest connector hconnector
          heq.symm
    have hcheck : unfoldCheck (unfoldVirtual types (newest :: history)) request =
        unfoldCheck (unfoldVirtual types history) request :=
      funext fun check => unfoldCheck_cons hunfold check
    rw [hcheck]
    by_cases hgid : newest.gid = request.gid
    · cases hfitted.eq_of_gid_eq mem_cons_self hrequest hgid
      rw [unfoldVirtual, if_pos rfl]
    · rw [unfoldVirtual_cons_of_ne hgid]
      refine ih hfitted.of_cons ((mem_cons.mp hrequest).resolve_left ?_)
      rintro rfl
      exact hgid rfl

/-- What is met does not depend on the order in which the gadgets were compiled. -/
theorem Fitted.unfoldVirtual_congr
    (hfitted' : Fitted types history') (hsubset : history ⊆ history')
    (hrequest : request ∈ history) (port index : ℕ) :
    unfoldVirtual types history request.gid port index =
      unfoldVirtual types history' request.gid port index := by
  induction history generalizing request port index with
  | nil => cases hrequest
  | cons newest history ih =>
    have ih : ∀ request ∈ history, ∀ port index,
        unfoldVirtual types history request.gid port index =
          unfoldVirtual types history' request.gid port index := fun request =>
      ih hfitted.of_cons fun other hother => hsubset (mem_cons_of_mem _ hother)
    by_cases hgid : newest.gid = request.gid
    · cases hfitted.eq_of_gid_eq mem_cons_self hrequest hgid
      rw [hfitted.unfoldVirtual_eq hrequest, hfitted'.unfoldVirtual_eq (hsubset hrequest)]
      have hcheck : unfoldCheck (unfoldVirtual types (newest :: history)) newest =
          unfoldCheck (unfoldVirtual types history') newest := by
        refine funext fun check => unfoldCheck_congr
          (fun connector hconnector port index => ?_) check
        obtain ⟨source, hsource, hsourceGid⟩ := hfitted.exists_older hconnector
        rw [unfoldVirtual_cons_of_ne fun heq =>
          hfitted.other newest mem_cons_self connector hconnector heq.symm, ← hsourceGid]
        exact ih source hsource port index
      rw [hcheck]
    · rw [unfoldVirtual_cons_of_ne hgid]
      refine ih request ((mem_cons.mp hrequest).resolve_left ?_) port index
      rintro rfl
      exact hgid rfl

theorem Fitted.unfoldCheck_congr (hfitted' : Fitted types history')
    (hsubset : history ⊆ history') (hrequest : request ∈ history) (check : JitCheck) :
    unfoldCheck (unfoldVirtual types history) request check =
      unfoldCheck (unfoldVirtual types history') request check := by
  refine QdkEc.unfoldCheck_congr (fun connector hconnector port index => ?_) check
  obtain ⟨source, hsource, hgid⟩ := hfitted.exists_source hrequest hconnector
  rw [← hgid]
  exact hfitted.unfoldVirtual_congr hfitted' hsubset hsource port index

theorem Fitted.find?_eq_some_iff :
    history.find? (fun request => request.gid = gid) = some request ↔
      request ∈ history ∧ request.gid = gid := by
  constructor
  · intro hfind
    have hgid := find?_some hfind
    exact ⟨mem_of_find?_eq_some hfind, of_decide_eq_true hgid⟩
  · rintro ⟨hrequest, rfl⟩
    cases hfind : history.find? (fun other => other.gid = request.gid) with
    | none => exact absurd (find?_eq_none.mp hfind request hrequest) (by simp)
    | some other =>
      have hgid := find?_some hfind
      rw [hfitted.eq_of_gid_eq (mem_of_find?_eq_some hfind) hrequest (of_decide_eq_true hgid)]

theorem Fitted.naturallyFlipped_congr
    (hfitted' : Fitted types history') (hsame : ∀ request, request ∈ history ↔ request ∈ history')
    (reference : Reference) :
    reference.naturallyFlipped types history = reference.naturallyFlipped types history' := by
  have hfind : ∀ gid, history.find? (fun request => request.gid = gid) =
      history'.find? (fun request => request.gid = gid) := fun gid => Option.ext fun request => by
    rw [hfitted.find?_eq_some_iff, hfitted'.find?_eq_some_iff, hsame]
  cases reference with
  | measurement gid index => rfl
  | unfinishedCheck gid index =>
    rw [Reference.naturallyFlipped, Reference.naturallyFlipped, unfinishedCheckOf,
      unfinishedCheckOf, hfind]

theorem Denotes.unique (hfitted' : Fitted types history')
    (hsame : ∀ request, request ∈ history ↔ request ∈ history') {references : List Reference}
    {expanded expanded' : Finset ExplicitMeasurement × Bool}
    (h : Denotes types history references expanded)
    (h' : Denotes types history' references expanded') : expanded = expanded' := by
  refine Prod.ext (Finset.ext fun measurement => ?_) ?_
  · rw [h.measurements, h'.measurements]
  · rw [h.flipped, h'.flipped]
    exact congrArg xorAll (map_congr_left fun reference _ =>
      hfitted.naturallyFlipped_congr hfitted' hsame reference)

end

end Unfold

section Built

variable {K : Type} {types : JitTypes K} {history history' : List GadgetRequest}

def CheckModelType.BuiltFrom (types : JitTypes K) (history : List GadgetRequest) (gid : ℕ)
    (checkModelType : CheckModelType) :
    Prop :=
  ∃ request ∈ history, request.gid = gid ∧ ∃ gadgetType,
    types.gadgetTypes.lookup request.gtype = some gadgetType ∧ ∃ gtypeOf finished orders,
      (∀ peer gtype, gtypeOf peer = some gtype →
        ∃ other ∈ history, other.gid = peer ∧ other.gtype = gtype) ∧
      List.Forall₂ (fun expanded jitCheck => Denotes types history
          (unfoldCheck (unfoldVirtual types history) request jitCheck)
          (expanded.1, expanded.2 ^^ jitCheck.naturallyFlipped))
        finished gadgetType.finishedChecks ∧
      JitCompiler.buildCheckModelType gid request.gtype gtypeOf finished orders =
        some checkModelType

/-- Each gadget of a run has a check model type, and it is built from its finished checks. -/
structure JitRun.Built (types : JitTypes K) (run : JitRun K) : Prop where
  mem_iff : ∀ gid, gid ∈ run.checkModelTypes ↔ gid ∈ run.history.map GadgetRequest.gid
  built : ∀ gid checkModelType, run.checkModelTypes.lookup gid = some checkModelType →
    checkModelType.BuiltFrom types run.history gid

variable {run after : JitRun K}

theorem JitRun.Built.compile (h : run.Built types) (hsound : run.Sound types)
    {instruction : JitInstruction K} {orders : List (List ExplicitMeasurement)}
    (hcompile : run.compile instruction orders = some after) : after.Built types := by
  obtain ⟨result, hresult, hcompile⟩ := bind_eq_some_iff.mp hcompile
  obtain ⟨_, hguard, hcompile⟩ := bind_eq_some_iff.mp hcompile
  have hnew := (guard_eq_some' _).mp hguard
  cases hcompile
  obtain ⟨gadgetType, inputMap, connected, outputChecks, hcompiles⟩ := compile_compiles hresult
  have hconnects := connectInputs_connects hcompiles.connected_eq
  have htype := hcompiles.gadgetType_eq
  rw [hsound.sameTypes.gadgetTypes] at htype
  refine ⟨fun gid => ?_, fun gid checkModelType hlookup => ?_⟩
  · rw [AList.mem_insert, map_cons, mem_cons, h.mem_iff]
  by_cases hgid : gid = result.2.gadget.gid
  · -- The checks of the new gadget.
    subst hgid
    rw [AList.lookup_insert] at hlookup
    cases hlookup
    obtain ⟨finished, hfinished, hbuild⟩ := hcompiles.checkModelType_eq
    refine ⟨result.2.gadget, mem_cons_self, rfl, gadgetType, htype, _, finished, orders,
      fun peer gtype hpeer => ?_, ?_, hbuild⟩
    · obtain ⟨state, hstate, rfl⟩ := map_eq_some_iff.mp hpeer
      rcases hconnects.lookup peer with ⟨-, hnone⟩ | ⟨old, state', hold, hstate', hreconnected⟩
      · rw [hstate] at hnone
        cases hnone
      · rw [hstate] at hstate'
        cases hstate'
        have hmem : peer ∈ run.compiler.gadgets := by rw [← AList.lookup_isSome, hold, isSome_some]
        obtain ⟨other, hother, rfl⟩ := mem_map.mp ((hsound.wired.mem_gadgets peer).mp hmem)
        obtain ⟨_, -, hgtype, -⟩ := hsound.wired.gadget other hother old hold
        exact ⟨other, mem_cons_of_mem _ hother, rfl, (hreconnected.gtype.trans hgtype).symm⟩
    · refine (mapM_eq_some_iff.mp hfinished).flip.imp fun expanded jitCheck hexpand => ?_
      rw [unfoldCheck_cons fun connector hconnector heq => hnew ?_]
      · exact hsound.wired.expand_denotes hconnects hnew hexpand
      · rw [hsound.wired.mem_gadgets, heq]
        exact hsound.wired.mem_of_connector hconnects hconnector
  · rw [AList.lookup_insert_ne hgid] at hlookup
    obtain ⟨request, hrequest, hgid', otherType, hotherType, gtypeOf, finished, orders', hgtypes,
      hfinished, hbuild⟩ := h.built gid checkModelType hlookup
    refine ⟨request, mem_cons_of_mem _ hrequest, hgid', otherType, hotherType, gtypeOf, finished,
      orders', fun peer gtype hpeer => ?_, hfinished.imp fun expanded jitCheck hdenotes => ?_,
        hbuild⟩
    · obtain ⟨other, hother, hpeer⟩ := hgtypes peer gtype hpeer
      exact ⟨other, mem_cons_of_mem _ hother, hpeer⟩
    · exact JitRun.denotes_unfoldCheck_cons hsound.wired hnew hrequest hdenotes

theorem JitRun.Built.step (h : run.Built types) (hsound : run.Sound types) {event : JitEvent K}
    (hstep : run.step event = some after) : after.Built types := by
  cases event with
  | compile instruction orders => exact h.compile hsound hstep
  | advance gid orders =>
    obtain ⟨future, -, hstep⟩ := bind_eq_some_iff.mp hstep
    split at hstep
    · obtain ⟨_, -, hstep⟩ := bind_eq_some_iff.mp hstep
      obtain ⟨_, -, hstep⟩ := bind_eq_some_iff.mp hstep
      cases hstep
      exact ⟨h.mem_iff, h.built⟩
    · obtain ⟨_, -, hstep⟩ := bind_eq_some_iff.mp hstep
      obtain ⟨_, -, hstep⟩ := bind_eq_some_iff.mp hstep
      obtain ⟨_, -, hstep⟩ := bind_eq_some_iff.mp hstep
      cases hstep
      exact ⟨h.mem_iff, h.built⟩

/-- What a finished check stands for: the measurements that are met an odd number of times. -/
def metMeasurements (types : JitTypes K) (history : List GadgetRequest) (request : GadgetRequest)
    (check : JitCheck) :
    Set ExplicitMeasurement :=
  {measurement | Odd ((unfoldCheck (unfoldVirtual types history) request check).count
    (.measurement measurement.gid measurement.measurementIndex))}

theorem CheckModelType.BuiltFrom.eq (hfitted : Fitted types history)
    (hfitted' : Fitted types history') (hsame : ∀ request, request ∈ history ↔ request ∈ history')
    {checkModelType checkModelType' : CheckModelType}
    (h : checkModelType.BuiltFrom types history gid)
    (h' : checkModelType'.BuiltFrom types history' gid)
    (hone : ∀ request ∈ history, request.gid = gid → ∀ gadgetType,
      types.gadgetTypes.lookup request.gtype = some gadgetType →
        BringOneEach ExplicitMeasurement.gid {gid}
          (gadgetType.finishedChecks.map (metMeasurements types history request))) :
    checkModelType = checkModelType' := by
  obtain ⟨request, hrequest, hgid, gadgetType, htype, gtypeOf, finished, orders, hgtypes, hfinished,
    hbuild⟩ := h
  obtain ⟨request', hrequest', hgid', gadgetType', htype', gtypeOf', finished', orders', hgtypes',
    hfinished', hbuild'⟩ := h'
  cases hfitted.eq_of_gid_eq hrequest ((hsame request').mpr hrequest') (hgid.trans hgid'.symm)
  rw [htype] at htype'
  cases htype'
  -- The finished checks are expanded to the same sets.
  have hexpanded : finished = finished' := by
    rw [← forall₂_eq_eq_eq]
    refine (forall₂_comp hfinished hfinished'.flip).imp fun expanded expanded' hmiddle => ?_
    obtain ⟨jitCheck, hdenotes, hdenotes'⟩ := hmiddle
    rw [hfitted.unfoldCheck_congr hfitted' (fun other hother => (hsame other).mp hother) hrequest]
      at hdenotes
    have heq := hdenotes.unique hfitted hfitted' hsame hdenotes'
    obtain ⟨hset, hflipped⟩ := Prod.mk.inj heq
    exact Prod.ext hset (Bool.xor_left_inj.mp hflipped)
  subst hexpanded
  -- The gadgets have the same types.
  have hgtype : ∀ (gtypeOf : ℕ → Option ℕ), (∀ peer gtype, gtypeOf peer = some gtype →
      ∃ other ∈ history, other.gid = peer ∧ other.gtype = gtype) → ∀ peer gtype,
        gtypeOf peer = some gtype →
          (history.find? fun other => other.gid = peer).elim 0 GadgetRequest.gtype = gtype := by
    intro gtypeOf hgtypeOf peer gtype hpeer
    obtain ⟨other, hother, hotherGid, hotherType⟩ := hgtypeOf peer gtype hpeer
    rw [hfitted.find?_eq_some_iff.mpr ⟨hother, hotherGid⟩, elim_some, hotherType]
  refine buildCheckModelType_eq (hgtype gtypeOf hgtypes)
    (hgtype gtypeOf' fun peer gtype hpeer => ?_)
    ?_ hbuild hbuild'
  · obtain ⟨other, hother, hpeer⟩ := hgtypes' peer gtype hpeer
    exact ⟨other, (hsame other).mpr hother, hpeer⟩
  · have hsets : (finished.map fun check => {measurement | measurement ∈ check.1}) =
        gadgetType.finishedChecks.map (metMeasurements types history request) := by
      rw [← forall₂_eq_eq_eq, forall₂_map_left_iff, forall₂_map_right_iff]
      exact hfinished.imp fun expanded jitCheck hdenotes =>
        Set.ext fun measurement => hdenotes.measurements measurement
    rw [hsets]
    exact hone request hrequest hgid gadgetType htype

def errorChecks (types : JitTypes K) (history : List GadgetRequest) (request : GadgetRequest)
    (references : CheckReferences) :
    Set ExplicitCheck :=
  {check | ∃ resolved : ℕ → Finset ExplicitCheck, (∀ index ∈ references.unfinishedChecks,
      Resolved types history request index (resolved index)) ∧
    check ∈ references.unfinishedChecks.foldl (fun sum index => symmDiff sum (resolved index))
      (references.finishedChecks.foldl
        (fun sum checkIndex => symmDiff sum {⟨request.gid, checkIndex⟩}) ∅)}

theorem errorChecks_eq (hfitted : Fitted types history)
    {outputVirtualChecks : List (Finset ExplicitCheck)}
    (hresolves : ResolveTo types history request outputVirtualChecks) {references : CheckReferences}
    {checks : Finset ExplicitCheck}
    (hexpand : JitCompiler.expandErrorChecks outputVirtualChecks request.gid references =
      some checks) : errorChecks types history request references = {check | check ∈ checks} := by
  obtain ⟨hfound, rfl⟩ := foldlM_symmDiff_eq hexpand
  have hself := fun index hindex => hresolves index _ (hfound index hindex)
  ext check
  constructor
  · rintro ⟨resolved, hresolved, hmem⟩
    rw [foldl_ext _ _ _ fun sum index hindex => congrArg (symmDiff sum)
      ((hresolved index hindex).unique hfitted (List.Subset.refl _) (hself index hindex))] at hmem
    exact hmem
  · exact fun hmem => ⟨_, hself, hmem⟩

theorem exists_expandErrorChecks_of_sequenceErrors
    {outputVirtualChecks : List (Finset ExplicitCheck)} {sequencer : Sequencer RemoteCheckModel}
    {errors : List (JitError K)} {orders : List (List ExplicitCheck)}
    {sequenced : Sequencer RemoteCheckModel × List (ModelError K)}
    (hrun : JitCompiler.sequenceErrors gid outputVirtualChecks sequencer errors orders =
      some sequenced) {error : JitError K} (herror : error ∈ errors)
    (hne : error.references.unfinishedChecks ≠ []) :
    ∃ checks, JitCompiler.expandErrorChecks outputVirtualChecks gid error.references =
      some checks := by
  induction errors generalizing sequencer orders sequenced with
  | nil => cases herror
  | cons other errors ih =>
    rw [JitCompiler.sequenceErrors.eq_def] at hrun
    dsimp only at hrun
    split at hrun
    · rename_i hnil
      obtain ⟨finished, hfinished, -⟩ := bind_eq_some_iff.mp hrun
      refine ih hfinished ((mem_cons.mp herror).resolve_left ?_)
      rintro rfl
      exact hne hnil
    · cases orders with
      | nil => cases hrun
      | cons order orders =>
        obtain ⟨checks, hchecks, hrun⟩ := bind_eq_some_iff.mp hrun
        obtain ⟨_, -, hrun⟩ := bind_eq_some_iff.mp hrun
        obtain ⟨finished, hfinished, -⟩ := bind_eq_some_iff.mp hrun
        rcases mem_cons.mp herror with rfl | herror
        · exact ⟨checks, hchecks⟩
        · exact ih hfinished herror

theorem ErrorModelType.BuiltFrom.eq (hfitted : Fitted types history)
    (hsame : ∀ request, request ∈ history ↔ request ∈ history')
    {errorModelType errorModelType' : ErrorModelType K}
    (h : errorModelType.BuiltFrom types history gid)
    (h' : errorModelType'.BuiltFrom types history' gid)
    (hone : ∀ request ∈ history, request.gid = gid → ∀ gadgetType,
      types.gadgetTypes.lookup request.gtype = some gadgetType →
        BringOneEach ExplicitCheck.cid {gid}
          ((gadgetType.errors.filter fun error => error.references.unfinishedChecks ≠ []).map
            fun error => errorChecks types history request error.references)) :
    errorModelType = errorModelType' := by
  obtain
    ⟨request, hrequest, rfl, gadgetType, htype, resolved, orders, hlength, hresolves, hbuild⟩ := h
  obtain ⟨request', hrequest', hgid', gadgetType', htype', resolved', orders', hlength', hresolves',
    hbuild'⟩ := h'
  cases hfitted.eq_of_gid_eq hrequest ((hsame request').mpr hrequest') hgid'.symm
  rw [htype] at htype'
  cases htype'
  have hresolved : resolved = resolved' := by
    refine ext_getElem (hlength.trans hlength'.symm) fun index hlt hlt' => ?_
    exact (hresolves index _ (getElem?_eq_getElem hlt)).unique hfitted
      (fun other hother => (hsame other).mpr hother)
      (hresolves' index _ (getElem?_eq_getElem hlt'))
  subst hresolved
  refine buildErrorModelType_eq ?_ hbuild hbuild'
  obtain ⟨sequenced, hsequenced, -⟩ := bind_eq_some_iff.mp hbuild
  have hsets : expandedErrors resolved request.gid gadgetType.errors =
      (gadgetType.errors.filter fun error => error.references.unfinishedChecks ≠ []).map
        fun error => errorChecks types history request error.references := by
    refine map_congr_left fun error herror => ?_
    obtain ⟨hmem, hne⟩ := mem_filter.mp herror
    obtain ⟨checks, hchecks⟩ :=
      exists_expandErrorChecks_of_sequenceErrors hsequenced hmem (of_decide_eq_true hne)
    rw [errorChecks_eq hfitted hresolves hchecks, hchecks]
    simp
  rw [hsets]
  exact hone request hrequest rfl gadgetType htype

end Built

end QdkEc
