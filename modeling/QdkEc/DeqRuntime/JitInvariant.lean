import QdkEc.DeqRuntime.JitWiring

/-!
# The invariant of a run of the compiler

This module proves the invariant of a run: how its gadgets are wired and what their
unconnected output ports denote.  From it follows that every compiled check is read as
the measurements that are met an odd number of times when the check is unfolded through
the input ports.
-/

namespace QdkEc

open Option List AList

variable {port index : ℕ}

section Split

variable {A : Type}

theorem getElem?_splitOutputChecks {counts : List ℕ} {checks : List A} {split : List (List A)}
    (hsplit : splitOutputChecks counts checks = some split) {portChecks : List A}
    {check : A} (hport : split[port]? = some portChecks)
    (hcheck : portChecks[index]? = some check) :
    checks[(counts.take port).sum + index]? = some check := by
  induction counts generalizing checks split port with
  | nil =>
    cases checks with
    | nil =>
      cases hsplit
      cases hport
    | cons check checks => cases hsplit
  | cons count counts ih =>
    rw [splitOutputChecks] at hsplit
    obtain ⟨_, hguard, hsplit⟩ := bind_eq_some_iff.mp hsplit
    obtain ⟨rest, hrest, hsplit⟩ := bind_eq_some_iff.mp hsplit
    cases hsplit
    cases port with
    | zero =>
      cases hport
      rw [take_zero, sum_nil, zero_add]
      rw [getElem?_take] at hcheck
      split at hcheck
      · exact hcheck
      · cases hcheck
    | succ port =>
      have hnext := ih hrest hport
      rw [getElem?_drop] at hnext
      rw [take_succ_cons, sum_cons, add_assoc]
      exact hnext

end Split

variable {expanded : Finset ExplicitMeasurement × Bool} {check : JitCheck} {gid : ℕ}

section Wired

variable {K : Type} {types : JitTypes K} {history : List GadgetRequest}
  {gadgets : GidMap JitGadgetState}

/-- The gadgets of a run: they are those of the history, an output port is connected exactly when
one of them has a connector to it, and unconnected ports denote what is met there. -/
structure Wired (types : JitTypes K) (history : List GadgetRequest)
    (gadgets : GidMap JitGadgetState) :
    Prop where
  nodup : (history.map GadgetRequest.gid).Nodup
  mem_gadgets : ∀ gid, gid ∈ gadgets ↔ gid ∈ history.map GadgetRequest.gid
  gadget : ∀ request ∈ history, ∀ state, gadgets.lookup request.gid = some state →
    ∃ gadgetType, types.gadgetTypes.lookup request.gtype = some gadgetType ∧
      state.gtype = request.gtype ∧
      inputVirtualCheckMap gadgetType types.portTypes = some state.inputVirtualCheckMap ∧
      state.outputs.length = gadgetType.base.gadgetType.outputs.length
  peers : ∀ request ∈ history, ∀ connector ∈ request.connectors,
    connector.gid ∈ history.map GadgetRequest.gid
  output : ∀ gid state, gadgets.lookup gid = some state → ∀ (port : ℕ) connector,
    state.outputs[port]? = some (some connector) ↔ ∃ request ∈ history,
      request.gid = connector.gid ∧ request.connectors[connector.port]? = some ⟨gid, port⟩
  checks : ∀ gid state, gadgets.lookup gid = some state → ∀ (port : ℕ) portChecks,
    state.outputs[port]? = some none → state.outputChecks[port]? = some portChecks →
      ∀ (index : ℕ) expanded, portChecks[index]? = some expanded →
        Denotes types history (unfoldVirtual types history gid port index) expanded

theorem wired_nil (types : JitTypes K) : Wired types [] ∅ where
  nodup := nodup_nil
  mem_gadgets gid := iff_of_false (notMem_empty gid) not_mem_nil
  gadget _ hrequest := absurd hrequest not_mem_nil
  peers _ hrequest := absurd hrequest not_mem_nil
  output _ _ hstate := by cases hstate
  checks _ _ hstate := by cases hstate

variable {request : GadgetRequest} {inputMap : InputVirtualCheckMap}
  {connected : GidMap JitGadgetState × List (List (Finset ExplicitMeasurement × Bool))}

theorem Connects.exists_peer
    (hconnects : Connects request.gid inputMap gadgets request.connectors.zipIdx connected)
    {inputPort : ℕ} {connector : Connector}
    (hconnector : request.connectors[inputPort]? = some connector) :
    ∃ portChecks peer, connected.2[inputPort]? = some portChecks ∧
      gadgets.lookup connector.gid = some peer ∧ peer.outputs[connector.port]? = some none ∧
        peer.outputChecks[connector.port]? = some portChecks := by
  obtain ⟨hlt, rfl⟩ := List.getElem?_eq_some_iff.mp hconnector
  have hlt' : inputPort < request.connectors.zipIdx.length := by rwa [List.length_zipIdx]
  have hlt'' : inputPort < connected.2.length := by rwa [← hconnects.inputs.length_eq]
  have hinput := hconnects.inputs.get hlt' hlt''
  rw [get_eq_getElem, get_eq_getElem, getElem_zipIdx] at hinput
  obtain ⟨peer, hpeer, hfree, hchecks⟩ := hinput
  exact ⟨_, peer, List.getElem?_eq_getElem hlt'', hpeer, hfree, hchecks⟩

theorem Wired.inputsDenote (hwired : Wired types history gadgets)
    (hconnects : Connects request.gid inputMap gadgets request.connectors.zipIdx connected) :
    InputsDenote types history request connected.2 := by
  intro inputPort portChecks hport
  obtain ⟨hlt, -⟩ := List.getElem?_eq_some_iff.mp hport
  rw [← hconnects.inputs.length_eq, List.length_zipIdx] at hlt
  have hconnector := List.getElem?_eq_getElem hlt
  obtain ⟨taken, peer, htaken, hpeer, hfree, hchecks⟩ := hconnects.exists_peer hconnector
  rw [hport] at htaken
  cases htaken
  exact ⟨_, hconnector, hwired.checks _ _ hpeer _ _ hfree hchecks⟩

theorem Wired.mem_of_connector (hwired : Wired types history gadgets)
    (hconnects : Connects request.gid inputMap gadgets request.connectors.zipIdx connected)
    {connector : Connector} (hconnector : connector ∈ request.connectors) :
    connector.gid ∈ history.map GadgetRequest.gid := by
  obtain ⟨inputPort, hget⟩ := getElem?_of_mem hconnector
  obtain ⟨-, peer, -, hpeer, -, -⟩ := hconnects.exists_peer hget
  rw [← hwired.mem_gadgets, ← lookup_isSome, hpeer, isSome_some]

theorem unfoldVirtual_cons_self {gadgetType : JitGadgetType K}
    (htype : types.gadgetTypes.lookup request.gtype = some gadgetType)
    (hcheck : gadgetType.unfinishedChecks[virtualIndex types gadgetType port index]? = some check) :
    unfoldVirtual types (request :: history) request.gid port index =
      .unfinishedCheck request.gid (virtualIndex types gadgetType port index) ::
        unfoldCheck (unfoldVirtual types history) request check := by
  rw [unfoldVirtual, if_pos rfl, htype, elim_some]
  dsimp only
  rw [hcheck, elim_some]

theorem denotes_unfinishedCheck (history : List GadgetRequest) {gadgetType : JitGadgetType K}
    (htype : types.gadgetTypes.lookup request.gtype = some gadgetType) {index : ℕ}
    (hcheck : gadgetType.unfinishedChecks[index]? = some check) :
    Denotes types (request :: history) [.unfinishedCheck request.gid index]
      (∅, check.naturallyFlipped) where
  measurements measurement := by
    refine iff_of_false (Finset.notMem_empty _) ?_
    rw [count_singleton, if_neg (by simp)]
    exact Nat.not_odd_zero
  flipped := by
    have hself : unfinishedCheckOf types (request :: history) request.gid index = some check := by
      have hfind : (request :: history).find? (fun other => other.gid = request.gid) =
        some request := find?_cons_of_pos (decide_eq_true rfl)
      rw [unfinishedCheckOf, hfind, bind_eq_bind, bind_some, htype]
      exact hcheck
    rw [map_singleton, xorAll_cons, xorAll_nil, Bool.xor_false, Reference.naturallyFlipped,
      hself, elim_some]

theorem Wired.expand_denotes (hwired : Wired types history gadgets)
    (hconnects : Connects request.gid inputMap gadgets request.connectors.zipIdx connected)
    (hnew : request.gid ∉ gadgets)
    (hexpand : expandCheckMeasurements connected.2 request.gid check = some expanded) :
    Denotes types (request :: history) (unfoldCheck (unfoldVirtual types history) request check)
      (expanded.1, expanded.2 ^^ check.naturallyFlipped) := by
  have hdenotes := expandCheckMeasurements_denotes (hwired.inputsDenote hconnects) hexpand
  refine ⟨hdenotes.measurements, ?_⟩
  rw [hdenotes.flipped]
  refine congrArg xorAll (map_congr_left fun reference hmem => ?_)
  rcases mem_unfoldCheck hmem with ⟨_, rfl⟩ | ⟨connector, -, index, hpeer⟩
  · rfl
  · refine (naturallyFlipped_cons fun heq => hnew ?_).symm
    rw [hwired.mem_gadgets, ← heq]
    exact gid_mem_of_mem_unfoldVirtual hpeer

variable {gadgetType : JitGadgetType K} {compiler : JitCompiler K}
  {orders : List (List ExplicitMeasurement)} {result : JitCompiler K × Compiled K}
  {outputChecks : List (List (Finset ExplicitMeasurement × Bool))}

theorem virtualOffset_eq {counts : List ℕ}
    (hcounts : (gadgetType.base.gadgetType.outputs.mapM fun ptype =>
      (types.portTypes.lookup ptype).map JitPortType.stabilizers) = some counts) (port : ℕ) :
    virtualOffset types gadgetType port = (counts.take port).sum := by
  have htake := forall₂_take port (mapM_eq_some_iff.mp hcounts)
  rw [virtualOffset]
  refine congrArg List.sum ?_
  rw [← forall₂_eq_eq_eq, forall₂_map_left_iff]
  refine htake.imp fun ptype count hcount => ?_
  obtain ⟨portType, hlookup, rfl⟩ := map_eq_some_iff.mp hcount
  rw [hlookup, elim_some]

theorem Wired.outputChecks_denote (hwired : Wired types history gadgets)
    (htypes : compiler.types.SameTypes types) (hgadgets : compiler.gadgets = gadgets)
    (hcompiles : Compiles compiler request orders result gadgetType inputMap connected outputChecks)
    (hnew : request.gid ∉ gadgets) {portChecks : List (Finset ExplicitMeasurement × Bool)}
    (hport : outputChecks[port]? = some portChecks) (hindex : portChecks[index]? = some expanded) :
    Denotes types (request :: history)
      (unfoldVirtual types (request :: history) request.gid port index) expanded := by
  subst hgadgets
  obtain ⟨counts, unfinished, hcounts, hunfinished, hsplit⟩ := hcompiles.outputChecks_eq
  have hconnects := connectInputs_connects hcompiles.connected_eq
  have hexpanded := getElem?_splitOutputChecks hsplit hport hindex
  rw [htypes.portTypes] at hcounts
  rw [← virtualOffset_eq hcounts] at hexpanded
  obtain ⟨check, hcheck, hexpand⟩ : ∃ check,
      gadgetType.unfinishedChecks[virtualIndex types gadgetType port index]? = some check ∧
        expandCheckMeasurements connected.2 request.gid check = some expanded :=
    exists_getElem?_of_mapM hunfinished hexpanded
  have htype := hcompiles.gadgetType_eq
  rw [htypes.gadgetTypes] at htype
  rw [unfoldVirtual_cons_self htype hcheck]
  have hdenotes := (denotes_unfinishedCheck history htype hcheck).append
    (hwired.expand_denotes hconnects hnew hexpand)
  rwa [Finset.bot_eq_empty.symm, bot_symmDiff, ← Bool.xor_assoc, Bool.xor_right_comm,
    Bool.xor_self, Bool.false_xor] at hdenotes

theorem Compiles.exists_old
    (hcompiles : Compiles compiler request orders result gadgetType inputMap connected outputChecks)
    (hne : gid ≠ request.gid) {state : JitGadgetState}
    (hstate : result.1.gadgets.lookup gid = some state) :
    ∃ old, compiler.gadgets.lookup gid = some old ∧
      Reconnected request.gid gid request.connectors.zipIdx old state := by
  rw [hcompiles.gadgets_eq, lookup_insert_ne hne] at hstate
  rcases (connectInputs_connects hcompiles.connected_eq).lookup gid with
    ⟨-, hnone⟩ | ⟨old, state', hold, hstate', hreconnected⟩
  · rw [hstate] at hnone
    cases hnone
  · rw [hstate] at hstate'
    cases hstate'
    exact ⟨old, hold, hreconnected⟩

theorem Compiles.mem_gadgets_iff
    (hcompiles : Compiles compiler request orders result gadgetType inputMap connected outputChecks)
    (gid : ℕ) : gid ∈ result.1.gadgets ↔ gid = request.gid ∨ gid ∈ compiler.gadgets := by
  rw [hcompiles.gadgets_eq, mem_insert, ← lookup_isSome, ← lookup_isSome]
  rcases (connectInputs_connects hcompiles.connected_eq).lookup gid with
    ⟨hnone, hnone'⟩ | ⟨old, state, hold, hstate, -⟩
  · rw [hnone, hnone']
  · rw [hold, hstate, isSome_some, isSome_some]

theorem Wired.compile (hwired : Wired types history compiler.gadgets)
    (htypes : compiler.types.SameTypes types) (hcache : compiler.types.CacheCorrect)
    (hcompiles : Compiles compiler request orders result gadgetType inputMap connected outputChecks)
    (hnew : request.gid ∉ compiler.gadgets) :
    Wired types (request :: history) result.1.gadgets := by
  have hconnects := connectInputs_connects hcompiles.connected_eq
  have hfresh : request.gid ∉ history.map GadgetRequest.gid := by rwa [← hwired.mem_gadgets]
  have hne : ∀ other ∈ history, other.gid ≠ request.gid := fun other hother heq =>
    hfresh (heq ▸ mem_map_of_mem hother)
  have hpeer : ∀ connector ∈ request.connectors, connector.gid ≠ request.gid :=
    fun connector hconnector heq => hfresh (heq ▸ hwired.mem_of_connector hconnects hconnector)
  have hself : result.1.gadgets.lookup request.gid = some {
      gtype := request.gtype
      outputs := List.replicate gadgetType.base.gadgetType.outputs.length none
      outputChecks := outputChecks
      inputVirtualCheckMap := inputMap
      outputVirtualChecks := none } := by
    rw [hcompiles.gadgets_eq, lookup_insert]
  obtain ⟨-, -, hmap⟩ := getInputVirtualCheckMap_spec hcache hcompiles.gadgetType_eq
    hcompiles.inputMap_eq
  rw [htypes.portTypes] at hmap
  have htype := hcompiles.gadgetType_eq
  rw [htypes.gadgetTypes] at htype
  refine ⟨nodup_cons.mpr ⟨hfresh, hwired.nodup⟩, fun gid => ?_, ?_, ?_, ?_, ?_⟩
  · rw [hcompiles.mem_gadgets_iff, map_cons, mem_cons, hwired.mem_gadgets]
  · -- The types of the gadgets.
    intro other hother state hstate
    rcases mem_cons.mp hother with rfl | hother
    · rw [hself] at hstate
      cases hstate
      exact ⟨gadgetType, htype, rfl, hmap, length_replicate⟩
    · obtain ⟨old, hold, h⟩ := hcompiles.exists_old (hne other hother) hstate
      obtain ⟨otherType, hlookup, hgtype, hotherMap, hlength⟩ := hwired.gadget other hother old hold
      exact ⟨otherType, hlookup, h.gtype.trans hgtype, h.inputVirtualCheckMap ▸ hotherMap,
        h.length.trans hlength⟩
  · -- The peers of the gadgets.
    intro other hother connector hconnector
    rw [map_cons]
    refine mem_cons_of_mem _ ?_
    rcases mem_cons.mp hother with rfl | hother
    · exact hwired.mem_of_connector hconnects hconnector
    · exact hwired.peers other hother connector hconnector
  · -- The connections of the output ports.
    intro gid state hstate port connector
    by_cases hgid : gid = request.gid
    · subst hgid
      rw [hself] at hstate
      cases hstate
      refine iff_of_false (fun hget => ?_) ?_
      · obtain ⟨hlt, hget⟩ := List.getElem?_eq_some_iff.mp hget
        rw [List.getElem_replicate] at hget
        cases hget
      · rintro ⟨other, hother, -, hconnector⟩
        have hmem := List.mem_of_getElem? hconnector
        rcases mem_cons.mp hother with rfl | hother
        · exact hpeer _ hmem rfl
        · exact hfresh (hwired.peers other hother _ hmem)
    · obtain ⟨old, hold, h⟩ := hcompiles.exists_old hgid hstate
      rw [h.output, hwired.output gid old hold, exists_mem_cons_iff,
        mk_mem_zipIdx_iff_getElem?, or_comm, eq_comm]
  · -- What the unconnected ports denote.
    intro gid state hstate port portChecks hfree hport index expanded hindex
    by_cases hgid : gid = request.gid
    · subst hgid
      rw [hself] at hstate
      cases hstate
      exact hwired.outputChecks_denote htypes rfl hcompiles hnew hport hindex
    · obtain ⟨old, hold, h⟩ := hcompiles.exists_old hgid hstate
      obtain ⟨hfree', hsame⟩ := h.free port hfree
      rw [unfoldVirtual_cons_of_ne fun heq => hgid heq.symm]
      refine (hwired.checks gid old hold port portChecks hfree' (hsame ▸ hport) index expanded
        hindex).cons fun reference hmem heq => hfresh ?_
      rw [← heq]
      exact gid_mem_of_mem_unfoldVirtual hmem

theorem Wired.publish (hwired : Wired types history gadgets) {gadget : JitGadgetState}
    (hgadget : gadgets.lookup gid = some gadget) (checks : List (Finset ExplicitCheck)) :
    Wired types history
      (gadgets.insert gid { gadget with outputVirtualChecks := some checks }) := by
  have hlookup : ∀ other state, (gadgets.insert gid { gadget with
      outputVirtualChecks := some checks }).lookup other = some state →
      ∃ old, gadgets.lookup other = some old ∧
        state = { old with outputVirtualChecks := state.outputVirtualChecks } := by
    intro other state hstate
    by_cases hother : other = gid
    · subst hother
      rw [lookup_insert] at hstate
      cases hstate
      exact ⟨gadget, hgadget, rfl⟩
    · rw [lookup_insert_ne hother] at hstate
      exact ⟨state, hstate, rfl⟩
  refine ⟨hwired.nodup, fun other => ?_, fun request hrequest state hstate => ?_, hwired.peers,
    fun other state hstate => ?_, fun other state hstate => ?_⟩
  · rw [mem_insert, ← hwired.mem_gadgets, or_iff_right_of_imp]
    rintro rfl
    exact lookup_isSome.mp (by rw [hgadget, isSome_some])
  · obtain ⟨old, hold, hsame⟩ := hlookup _ state hstate
    rw [hsame]
    exact hwired.gadget request hrequest old hold
  · obtain ⟨old, hold, hsame⟩ := hlookup other state hstate
    rw [hsame]
    exact hwired.output other old hold
  · obtain ⟨old, hold, hsame⟩ := hlookup other state hstate
    rw [hsame]
    exact hwired.checks other old hold

end Wired

/-- A compiled check is read as the measurements that are met an odd number of times when a check is
unfolded, each of them once, and its constant is the sum of the constants that are met. -/
def Check.DenotesUnfolded {K : Type} (types : JitTypes K) (history : List GadgetRequest)
    (request : GadgetRequest) (remoteGadgets : List RemoteGadget) (check : Check)
    (jitCheck : JitCheck) :
    Prop :=
  ∃ measurements,
    check.measurements.mapM (readMeasurement remoteGadgets request.gid) = some measurements ∧
      measurements.Nodup ∧
        Denotes types history (unfoldCheck (unfoldVirtual types history) request jitCheck)
          (measurements.toFinset, check.naturallyFlipped ^^ jitCheck.naturallyFlipped)

def CheckModelType.DenotesFinished {K : Type} (types : JitTypes K) (history : List GadgetRequest)
    (gid : ℕ) (checkModelType : CheckModelType) :
    Prop :=
  ∃ request ∈ history, request.gid = gid ∧ ∃ gadgetType,
    types.gadgetTypes.lookup request.gtype = some gadgetType ∧
      List.Forall₂ (Check.DenotesUnfolded types history request checkModelType.remoteGadgets)
        checkModelType.checks gadgetType.finishedChecks

namespace JitRun

variable {K : Type} {types : JitTypes K} {run after : JitRun K}

/-- What holds at any time of a run. -/
structure Sound (types : JitTypes K) (run : JitRun K) : Prop where
  sameTypes : run.compiler.types.SameTypes types
  cache : run.compiler.types.CacheCorrect
  wired : Wired types run.history run.compiler.gadgets
  denotes : ∀ gid checkModelType, run.checkModelTypes.lookup gid = some checkModelType →
    checkModelType.DenotesFinished types run.history gid

theorem sound_new {initial : JitTypes K} (hsame : initial.SameTypes types)
    (hcache : initial.CacheCorrect) : (new initial).Sound types where
  sameTypes := hsame
  cache := hcache
  wired := wired_nil types
  denotes := nofun

theorem denotes_unfoldCheck_cons {history : List GadgetRequest} {gadgets : GidMap JitGadgetState}
    (hwired : Wired types history gadgets) {request other : GadgetRequest}
    (hnew : request.gid ∉ gadgets) (hother : other ∈ history)
    (hdenotes : Denotes types history (unfoldCheck (unfoldVirtual types history) other check)
      expanded) : Denotes types (request :: history)
      (unfoldCheck (unfoldVirtual types (request :: history)) other check) expanded := by
  have hfresh : ∀ id ∈ history.map GadgetRequest.gid, request.gid ≠ id := fun id hid heq =>
    hnew (by rwa [hwired.mem_gadgets, heq])
  rw [unfoldCheck_cons fun connector hconnector =>
    hfresh _ (hwired.peers other hother connector hconnector)]
  refine hdenotes.cons fun reference hmem heq => ?_
  rcases mem_unfoldCheck hmem with ⟨index, rfl⟩ | ⟨connector, -, index, hpeer⟩
  · exact hfresh _ (mem_map_of_mem hother) heq.symm
  · exact hfresh _ (gid_mem_of_mem_unfoldVirtual hpeer) heq.symm

theorem denotesFinished_cons {history : List GadgetRequest} {gadgets : GidMap JitGadgetState}
    (hwired : Wired types history gadgets) {request : GadgetRequest} (hnew : request.gid ∉ gadgets)
    {checkModelType : CheckModelType} (h : checkModelType.DenotesFinished types history gid) :
    checkModelType.DenotesFinished types (request :: history) gid := by
  obtain ⟨other, hother, hgid, gadgetType, htype, hchecks⟩ := h
  refine ⟨other, mem_cons_of_mem _ hother, hgid, gadgetType, htype,
    hchecks.imp fun check jitCheck hdenotes => ?_⟩
  obtain ⟨measurements, hread, hnodup, hdenotes⟩ := hdenotes
  exact ⟨measurements, hread, hnodup, denotes_unfoldCheck_cons hwired hnew hother hdenotes⟩

theorem Sound.compile (hsound : run.Sound types) {instruction : JitInstruction K}
    {orders : List (List ExplicitMeasurement)}
    (hcompile : run.compile instruction orders = some after) : after.Sound types := by
  obtain ⟨result, hresult, hcompile⟩ := bind_eq_some_iff.mp hcompile
  obtain ⟨_, hguard, hcompile⟩ := bind_eq_some_iff.mp hcompile
  have hnew := (guard_eq_some' _).mp hguard
  cases hcompile
  obtain ⟨gadgetType, inputMap, connected, outputChecks, hcompiles⟩ := compile_compiles hresult
  have hconnects := connectInputs_connects hcompiles.connected_eq
  obtain ⟨hsame, hcache, -⟩ := getInputVirtualCheckMap_spec hsound.cache hcompiles.gadgetType_eq
    hcompiles.inputMap_eq
  have htype := hcompiles.gadgetType_eq
  rw [hsound.sameTypes.gadgetTypes] at htype
  refine ⟨⟨hsame.portTypes.trans hsound.sameTypes.portTypes,
    hsame.gadgetTypes.trans hsound.sameTypes.gadgetTypes⟩, hcache,
    hsound.wired.compile hsound.sameTypes hsound.cache hcompiles hnew,
    fun gid checkModelType hlookup => ?_⟩
  by_cases hgid : gid = result.2.gadget.gid
  · -- The checks of the new gadget.
    subst hgid
    rw [lookup_insert] at hlookup
    cases hlookup
    obtain ⟨finished, hfinished, hbuild⟩ := hcompiles.checkModelType_eq
    refine ⟨result.2.gadget, mem_cons_self, rfl, gadgetType, htype, ?_⟩
    refine (forall₂_comp (buildCheckModelType_reads hbuild)
      (mapM_eq_some_iff.mp hfinished).flip).imp fun check jitCheck h => ?_
    obtain ⟨expanded, ⟨hflipped, measurements, hread, hnodup, hset⟩, hexpand⟩ := h
    refine ⟨measurements, hread, hnodup, ?_⟩
    rw [hset, hflipped, unfoldCheck_cons fun connector hconnector heq => hnew ?_]
    · exact hsound.wired.expand_denotes hconnects hnew hexpand
    · rw [hsound.wired.mem_gadgets, heq]
      exact hsound.wired.mem_of_connector hconnects hconnector
  · rw [lookup_insert_ne hgid] at hlookup
    exact denotesFinished_cons hsound.wired hnew (hsound.denotes gid checkModelType hlookup)

theorem Sound.advance (hsound : run.Sound types) {orders : List (List ExplicitCheck)}
    (hadvance : run.step (.advance gid orders) = some after) : after.Sound types := by
  obtain ⟨future, -, hadvance⟩ := bind_eq_some_iff.mp hadvance
  split at hadvance
  · obtain ⟨_, -, hadvance⟩ := bind_eq_some_iff.mp hadvance
    obtain ⟨checks, -, hadvance⟩ := bind_eq_some_iff.mp hadvance
    cases hadvance
    exact ⟨hsound.sameTypes, hsound.cache, hsound.wired, hsound.denotes⟩
  · obtain ⟨_, -, hadvance⟩ := bind_eq_some_iff.mp hadvance
    obtain ⟨compiler, hpublish, hadvance⟩ := bind_eq_some_iff.mp hadvance
    obtain ⟨errorModelType, -, hadvance⟩ := bind_eq_some_iff.mp hadvance
    cases hadvance
    obtain ⟨gadget, hgadget, hpublish⟩ := bind_eq_some_iff.mp hpublish
    cases hpublish
    exact ⟨hsound.sameTypes, hsound.cache, hsound.wired.publish hgadget _, hsound.denotes⟩

theorem Sound.step (hsound : run.Sound types) {event : JitEvent K}
    (hstep : run.step event = some after) : after.Sound types := by
  cases event with
  | compile instruction orders => exact hsound.compile hstep
  | advance gid orders => exact hsound.advance hstep

theorem sound_of_run {initial : JitTypes K} (hsame : initial.SameTypes types)
    (hcache : initial.CacheCorrect) {events : List (JitEvent K)}
    (hrun : JitRun.run initial events = some run) : run.Sound types :=
  foldlM_induction (fun _ run => run.Sound types) (sound_new hsame hcache)
    (fun _ _ _ _ hsound hstep => hsound.step hstep) hrun

end JitRun

section Load

variable {K : Type} {types after : JitTypes K}

variable {gadgetType : JitGadgetType K}

theorem inputVirtualCheckMap_congr {portTypes otherTypes : GidMap JitPortType}
    (hsame : ∀ ptype ∈ gadgetType.base.gadgetType.inputs,
      portTypes.lookup ptype = otherTypes.lookup ptype) :
    inputVirtualCheckMap gadgetType portTypes = inputVirtualCheckMap gadgetType otherTypes := by
  rw [inputVirtualCheckMap, inputVirtualCheckMap, mapM_congr fun ptype hptype => by
    rw [hsame ptype hptype]]

theorem mem_portTypes_of_inputVirtualCheckMap
    {portTypes : GidMap JitPortType} {inputMap : InputVirtualCheckMap}
    (hmap : inputVirtualCheckMap gadgetType portTypes = some inputMap) {ptype : ℕ}
    (hptype : ptype ∈ gadgetType.base.gadgetType.inputs) : ptype ∈ portTypes := by
  obtain ⟨initial, hinitial, -⟩ := bind_eq_some_iff.mp hmap
  have hsome := isSome_mapM_iff.mp (isSome_of_mem hinitial) ptype hptype
  rwa [isSome_map, lookup_isSome] at hsome

theorem JitTypes.CacheCorrect.loadPortType (hcache : types.CacheCorrect) {portType : JitPortType}
    (hload : types.loadPortType portType = some after) : after.CacheCorrect := by
  obtain ⟨_, hguard, hload⟩ := bind_eq_some_iff.mp hload
  have hnew := (guard_eq_some' _).mp hguard
  cases hload
  intro gtype inputMap hstored
  obtain ⟨gadgetType, htype, hmap⟩ := hcache gtype inputMap hstored
  refine ⟨gadgetType, htype, hmap ▸ inputVirtualCheckMap_congr fun ptype hptype => ?_⟩
  exact lookup_insert_ne fun heq =>
    hnew (heq ▸ mem_portTypes_of_inputVirtualCheckMap hmap hptype)

theorem JitTypes.CacheCorrect.loadGadgetType (hcache : types.CacheCorrect)
    (hload : types.loadGadgetType gadgetType = some after) : after.CacheCorrect := by
  obtain ⟨_, hguard, hload⟩ := bind_eq_some_iff.mp hload
  have hnew := (guard_eq_some' _).mp hguard
  obtain ⟨maps, hmaps, hload⟩ := bind_eq_some_iff.mp hload
  cases hload
  intro gtype inputMap hstored
  rw [JitTypes.storeInputVirtualChecks] at hmaps
  dsimp only at hstored ⊢
  by_cases hgtype : gtype = gadgetType.base.gtype
  · subst hgtype
    rw [lookup_insert]
    split at hmaps
    · obtain ⟨stored, hmap, rfl⟩ := map_eq_some_iff.mp hmaps
      rw [lookup_insert] at hstored
      cases hstored
      exact ⟨gadgetType, rfl, hmap⟩
    · cases hmaps
      obtain ⟨other, hother, -⟩ := hcache _ _ hstored
      exact absurd (lookup_isSome.mp (by rw [hother, isSome_some])) hnew
  · rw [lookup_insert_ne hgtype]
    refine hcache gtype inputMap ?_
    split at hmaps
    · obtain ⟨stored, -, rfl⟩ := map_eq_some_iff.mp hmaps
      rwa [lookup_insert_ne hgtype] at hstored
    · cases hmaps
      exact hstored

theorem JitTypes.CacheCorrect.loadLibrary (hcache : types.CacheCorrect) {library : JitLibrary K}
    (hload : types.loadLibrary library = some after) : after.CacheCorrect := by
  obtain ⟨middle, hports, hgadgets⟩ := bind_eq_some_iff.mp hload
  have hmiddle : middle.CacheCorrect := foldlM_induction (fun _ types => types.CacheCorrect) hcache
    (fun _ _ _ _ hcache hload => hcache.loadPortType hload) hports
  exact foldlM_induction (fun _ types => types.CacheCorrect) hmiddle
    (fun _ _ _ _ hcache hload => hcache.loadGadgetType hload) hgadgets

theorem JitTypes.cacheCorrect_empty (K : Type) : (JitTypes.empty K).CacheCorrect :=
  nofun

end Load

/-- Compiled checks denote the measurements that they unfold to: in every run over a library that
was loaded, and biases can always be subtracted. -/
theorem checkModelTypes_denote {K : Type} {libraries : List (JitLibrary K)} {types : JitTypes K}
    (hload : libraries.foldlM JitTypes.loadLibrary (JitTypes.empty K) = some types)
    {events : List (JitEvent K)} {run : JitRun K} (hrun : JitRun.run types events = some run) :
    (∀ gid checkModelType, run.checkModelTypes.lookup gid = some checkModelType →
      checkModelType.DenotesFinished types run.history gid) ∧
    ∀ gid gtypeOf expanded orders sequenced,
      JitCompiler.sequenceChecks gid gtypeOf .new expanded orders = some sequenced →
        ∃ checks, sequenced.2.mapM (applyBiasToCheck sequenced.1) = some checks := by
  have hcache : types.CacheCorrect := foldlM_induction (fun _ types => types.CacheCorrect)
    (JitTypes.cacheCorrect_empty K) (fun _ _ _ _ hcache hload => hcache.loadLibrary hload) hload
  exact ⟨(JitRun.sound_of_run ⟨rfl, rfl⟩ hcache hrun).denotes,
    fun _ _ _ _ _ => exists_mapM_applyBiasToCheck_eq⟩

/-- A library with a source, whose unfinished check is flipped, and a sink. -/
def sourceSinkLibrary : JitLibrary ℚ where
  portTypes := [⟨⟨1, 0⟩, 1⟩]
  gadgetTypes := [⟨⟨1, ⟨[], [1], 1, 0, none, none, none, none⟩, [], none, false⟩, [],
      [⟨true, [⟨none, 0⟩]⟩], [⟨⟨[], 0, [], []⟩, [], [0]⟩]⟩,
    ⟨⟨2, ⟨[1], [], 1, 0, none, none, none, none⟩, [], none, false⟩,
      [⟨false, [⟨some 0, 0⟩, ⟨none, 0⟩]⟩], [], []⟩]

def sourceSinkEvents : List (JitEvent ℚ) :=
  [.compile ⟨some ⟨7, 1, [], none⟩, none⟩ [],
    .compile ⟨some ⟨8, 2, [⟨7, 0⟩], none⟩, none⟩ [[⟨8, 0⟩, ⟨7, 0⟩]]]

def sourceSinkTypes : JitTypes ℚ :=
  ([sourceSinkLibrary].foldlM JitTypes.loadLibrary (JitTypes.empty ℚ)).get (by decide +kernel)

def sourceSinkRun : JitRun ℚ :=
  (JitRun.run sourceSinkTypes sourceSinkEvents).get (by decide +kernel)

theorem loadLibrary_sourceSink :
    [sourceSinkLibrary].foldlM JitTypes.loadLibrary (JitTypes.empty ℚ) = some sourceSinkTypes := by
  rw [sourceSinkTypes, some_get]

theorem run_sourceSink : JitRun.run sourceSinkTypes sourceSinkEvents = some sourceSinkRun := by
  rw [sourceSinkRun, some_get]

theorem lookup_sourceSink : sourceSinkRun.checkModelTypes.lookup 8 =
      some ⟨8, 2, [⟨none, 1, 0, some 7, none⟩], [⟨[⟨none, 0⟩, ⟨some 0, 0⟩], true⟩]⟩ := by
  decide +kernel

/-- The check of the sink denotes the measurements of both gadgets. -/
theorem checkModelTypes_denote_sourceSink :
    CheckModelType.DenotesFinished sourceSinkTypes sourceSinkRun.history 8
      ⟨8, 2, [⟨none, 1, 0, some 7, none⟩], [⟨[⟨none, 0⟩, ⟨some 0, 0⟩], true⟩]⟩ :=
  (checkModelTypes_denote loadLibrary_sourceSink run_sourceSink).1 8 _ lookup_sourceSink

end QdkEc
