import QdkEc.DeqRuntime.JitExpansion

/-!
# How the gadgets of a run are wired

This module proves what connecting a gadget changes at its peers, and the invariant of a
run that follows: an output port is connected exactly when a gadget of the history has a
connector to it, and the checks of an unconnected port denote what is met there.
-/

namespace QdkEc

/-- A gadget after connections of its output ports to a new gadget. -/
structure Reconnected (gid peerGid : ℕ) (connections : List (Connector × ℕ))
    (old state : JitGadgetState) :
    Prop where
  gtype : state.gtype = old.gtype
  inputVirtualCheckMap : state.inputVirtualCheckMap = old.inputVirtualCheckMap
  outputVirtualChecks : state.outputVirtualChecks = old.outputVirtualChecks
  length : state.outputs.length = old.outputs.length
  output : ∀ (port : ℕ) connector, state.outputs[port]? = some (some connector) ↔
    old.outputs[port]? = some (some connector) ∨
      (connector.gid = gid ∧ (⟨peerGid, port⟩, connector.port) ∈ connections)
  free : ∀ port : ℕ, state.outputs[port]? = some none →
    old.outputs[port]? = some none ∧ state.outputChecks[port]? = old.outputChecks[port]?

/-- The gadgets after connections to a new gadget, with the checks that were taken. -/
structure Connects (gid : ℕ) (inputMap : InputVirtualCheckMap) (before : GidMap JitGadgetState)
    (connections : List (Connector × ℕ))
    (connected : GidMap JitGadgetState × List (List (Finset ExplicitMeasurement × Bool))) :
    Prop where
  inputs : List.Forall₂ (fun connection portChecks => ∃ peer,
      before.lookup connection.1.gid = some peer ∧
        peer.outputs[connection.1.port]? = some none ∧
          peer.outputChecks[connection.1.port]? = some portChecks) connections connected.2
  lookup : ∀ peerGid, (before.lookup peerGid = none ∧ connected.1.lookup peerGid = none) ∨
    ∃ old state, before.lookup peerGid = some old ∧ connected.1.lookup peerGid = some state ∧
      Reconnected gid peerGid connections old state

section Connect

variable {gid : ℕ} {inputMap : InputVirtualCheckMap} {before : GidMap JitGadgetState}

theorem Reconnected.refl (peerGid : ℕ) (old : JitGadgetState) :
    Reconnected gid peerGid [] old old where
  gtype := rfl
  inputVirtualCheckMap := rfl
  outputVirtualChecks := rfl
  length := rfl
  output port connector := by simp
  free port hfree := ⟨hfree, rfl⟩

variable {connections : List (Connector × ℕ)}

theorem Reconnected.concat_of_ne {peerGid : ℕ}
    {old state : JitGadgetState} (h : Reconnected gid peerGid connections old state)
    {connection : Connector × ℕ} (hne : connection.1.gid ≠ peerGid) :
    Reconnected gid peerGid (connections ++ [connection]) old state where
  gtype := h.gtype
  inputVirtualCheckMap := h.inputVirtualCheckMap
  outputVirtualChecks := h.outputVirtualChecks
  length := h.length
  output port connector := by
    have hother : (⟨⟨peerGid, port⟩, connector.port⟩ : Connector × ℕ) ∉ [connection] := by
      rw [List.mem_singleton]
      rintro rfl
      exact hne rfl
    rw [h.output, List.mem_append, or_iff_left hother]
  free := h.free

theorem Reconnected.concat_self {peerGid : ℕ}
    {old state : JitGadgetState} (h : Reconnected gid peerGid connections old state)
    {port inputPort : ℕ} (hfree : state.outputs[port]? = some none) :
    Reconnected gid peerGid (connections ++ [(⟨peerGid, port⟩, inputPort)]) old { state with
        outputs := state.outputs.set port (some ⟨gid, inputPort⟩)
        outputChecks := state.outputChecks.set port [] } where
  gtype := h.gtype
  inputVirtualCheckMap := h.inputVirtualCheckMap
  outputVirtualChecks := h.outputVirtualChecks
  length := by rw [List.length_set, h.length]
  output other connector := by
    obtain ⟨hlt, hget⟩ := List.getElem?_eq_some_iff.mp hfree
    rw [List.getElem?_set, List.mem_append, List.mem_singleton, and_or_left, ← or_assoc, ← h.output]
    by_cases hport : port = other
    · subst hport
      rw [if_pos rfl, if_pos hlt, Option.some_inj, Option.some_inj, hfree, Option.some_inj,
        or_iff_right (by simp)]
      constructor
      · rintro rfl
        exact ⟨rfl, rfl⟩
      · rintro ⟨rfl, heq⟩
        cases heq
        rfl
    · rw [if_neg hport, or_iff_left]
      rintro ⟨-, heq⟩
      exact hport (congrArg (fun connection : Connector × ℕ => connection.1.port) heq).symm
  free other hother := by
    rw [List.getElem?_set] at hother
    split at hother
    · split at hother <;> cases hother
    · rename_i hport
      rw [List.getElem?_set_ne hport]
      exact h.free other hother

theorem connectInputs_connects
    {connected : GidMap JitGadgetState × List (List (Finset ExplicitMeasurement × Bool))}
    (hrun : connections.foldlM (JitCompiler.connectInput gid inputMap) (before, []) =
      some connected) : Connects gid inputMap before connections connected := by
  refine foldlM_induction (fun done connected => Connects gid inputMap before done connected)
    ⟨.nil, fun peerGid => ?_⟩ ?_ hrun
  · cases hlookup : before.lookup peerGid with
    | none => exact .inl ⟨rfl, rfl⟩
    | some old => exact .inr ⟨old, old, rfl, rfl, .refl peerGid old⟩
  · rintro done ⟨⟨peerGid, port⟩, inputPort⟩ ⟨gadgets, taken⟩ after hbefore hstep
    obtain ⟨peer, hpeer, hstep⟩ := Option.bind_eq_some_iff.mp hstep
    obtain ⟨_, hguard, hstep⟩ := Option.bind_eq_some_iff.mp hstep
    obtain ⟨peerChecks, hchecks, hstep⟩ := Option.bind_eq_some_iff.mp hstep
    obtain ⟨entries, hentries, hstep⟩ := Option.bind_eq_some_iff.mp hstep
    obtain ⟨_, hlength, hstep⟩ := Option.bind_eq_some_iff.mp hstep
    cases hstep
    have hfree : peer.outputs[port]? = some none := (Option.guard_eq_some' _).mp hguard
    rcases hbefore.lookup peerGid with ⟨-, hnone⟩ | ⟨old, state, hold, hstate, hreconnected⟩
    · rw [hpeer] at hnone
      cases hnone
    rw [hpeer] at hstate
    cases hstate
    refine ⟨List.rel_append hbefore.inputs (.cons ⟨old, hold, ?_⟩ .nil), fun other => ?_⟩
    · obtain ⟨hfree', hsame⟩ := hreconnected.free port hfree
      exact ⟨hfree', hsame ▸ hchecks⟩
    · by_cases hother : other = peerGid
      · subst hother
        exact .inr ⟨old, _, hold, AList.lookup_insert _, hreconnected.concat_self hfree⟩
      · rw [AList.lookup_insert_ne hother]
        exact (hbefore.lookup other).imp_right fun ⟨old, state, hold, hstate, h⟩ =>
          ⟨old, state, hold, hstate, h.concat_of_ne fun heq => hother heq.symm⟩

end Connect

section Compile

variable {K : Type}

/-- The stored references to input ports are those of their gadget types. -/
def JitTypes.CacheCorrect (types : JitTypes K) : Prop :=
  ∀ gtype inputMap, types.inputVirtualCheckMaps.lookup gtype = some inputMap →
    ∃ gadgetType, types.gadgetTypes.lookup gtype = some gadgetType ∧
      inputVirtualCheckMap gadgetType types.portTypes = some inputMap

/-- Types that differ in what they store about input ports. -/
structure JitTypes.SameTypes (types other : JitTypes K) : Prop where
  portTypes : types.portTypes = other.portTypes
  gadgetTypes : types.gadgetTypes = other.gadgetTypes

theorem getInputVirtualCheckMap_spec {types : JitTypes K} (hcache : types.CacheCorrect) {gtype : ℕ}
    {gadgetType : JitGadgetType K} (htype : types.gadgetTypes.lookup gtype = some gadgetType)
    {mapped : JitTypes K × InputVirtualCheckMap}
    (hmapped : JitCompiler.getInputVirtualCheckMap types gtype gadgetType = some mapped) :
    mapped.1.SameTypes types ∧ mapped.1.CacheCorrect ∧
      inputVirtualCheckMap gadgetType types.portTypes = some mapped.2 := by
  rw [JitCompiler.getInputVirtualCheckMap] at hmapped
  split at hmapped
  · rename_i inputMap hstored
    cases hmapped
    obtain ⟨stored, hstoredType, hmap⟩ := hcache gtype inputMap hstored
    rw [htype] at hstoredType
    cases hstoredType
    exact ⟨⟨rfl, rfl⟩, hcache, hmap⟩
  · obtain ⟨inputMap, hmap, hmapped⟩ := Option.bind_eq_some_iff.mp hmapped
    cases hmapped
    refine ⟨⟨rfl, rfl⟩, fun other otherMap hother => ?_, hmap⟩
    by_cases hsame : other = gtype
    · subst hsame
      rw [AList.lookup_insert] at hother
      cases hother
      exact ⟨gadgetType, htype, hmap⟩
    · rw [AList.lookup_insert_ne hsame] at hother
      exact hcache other otherMap hother

/-- What a compiled instruction consists of. -/
structure Compiles (compiler : JitCompiler K) (request : GadgetRequest)
    (orders : List (List ExplicitMeasurement)) (result : JitCompiler K × Compiled K)
    (gadgetType : JitGadgetType K) (inputMap : InputVirtualCheckMap)
    (connected : GidMap JitGadgetState × List (List (Finset ExplicitMeasurement × Bool)))
    (outputChecks : List (List (Finset ExplicitMeasurement × Bool))) :
    Prop where
  gadgetType_eq : compiler.types.gadgetTypes.lookup request.gtype = some gadgetType
  inputMap_eq : JitCompiler.getInputVirtualCheckMap compiler.types request.gtype gadgetType =
    some (result.1.types, inputMap)
  connected_eq : request.connectors.zipIdx.foldlM (JitCompiler.connectInput request.gid inputMap)
    (compiler.gadgets, []) = some connected
  gadget_eq : result.2.gadget = request
  checkModelType_eq : ∃ finished, gadgetType.finishedChecks.mapM
      (expandCheckMeasurements connected.2 request.gid) = some finished ∧
    JitCompiler.buildCheckModelType request.gid request.gtype
      (fun peer => (connected.1.lookup peer).map JitGadgetState.gtype) finished orders =
        some result.2.checkModelType
  outputChecks_eq : ∃ counts unfinished, (gadgetType.base.gadgetType.outputs.mapM fun ptype =>
      (compiler.types.portTypes.lookup ptype).map JitPortType.stabilizers) = some counts ∧
    gadgetType.unfinishedChecks.mapM (expandCheckMeasurements connected.2 request.gid) =
      some unfinished ∧
    splitOutputChecks counts unfinished = some outputChecks
  gadgets_eq : result.1.gadgets = connected.1.insert request.gid {
    gtype := request.gtype
    outputs := List.replicate gadgetType.base.gadgetType.outputs.length none
    outputChecks := outputChecks
    inputVirtualCheckMap := inputMap
    outputVirtualChecks := none }
  future_eq : ∃ probabilityModifier,
    result.2.future = ⟨gadgetType, probabilityModifier, 0, []⟩

theorem compile_compiles {compiler : JitCompiler K} {instruction : JitInstruction K}
    {orders : List (List ExplicitMeasurement)} {result : JitCompiler K × Compiled K}
    (hcompile : compiler.compile instruction orders = some result) :
    ∃ gadgetType inputMap connected outputChecks,
      Compiles compiler result.2.gadget orders result gadgetType inputMap connected
        outputChecks := by
  obtain ⟨request, -, hcompile⟩ := Option.bind_eq_some_iff.mp hcompile
  obtain ⟨gadgetType, htype, hcompile⟩ := Option.bind_eq_some_iff.mp hcompile
  obtain ⟨mapped, hmapped, hcompile⟩ := Option.bind_eq_some_iff.mp hcompile
  obtain ⟨connected, hconnected, hcompile⟩ := Option.bind_eq_some_iff.mp hcompile
  obtain ⟨finished, hfinished, hcompile⟩ := Option.bind_eq_some_iff.mp hcompile
  obtain ⟨checkModelType, hbuild, hcompile⟩ := Option.bind_eq_some_iff.mp hcompile
  obtain ⟨counts, hcounts, hcompile⟩ := Option.bind_eq_some_iff.mp hcompile
  obtain ⟨unfinished, hunfinished, hcompile⟩ := Option.bind_eq_some_iff.mp hcompile
  obtain ⟨outputChecks, hsplit, hcompile⟩ := Option.bind_eq_some_iff.mp hcompile
  cases hcompile
  exact ⟨gadgetType, mapped.2, connected, outputChecks, htype, hmapped, hconnected, rfl,
    ⟨finished, hfinished, hbuild⟩, ⟨counts, unfinished, hcounts, hunfinished, hsplit⟩, rfl,
    ⟨_, rfl⟩⟩

end Compile

end QdkEc
