import QdkEc.DeqRuntime.JitReferences

/-!
# Virtual checks that are resolved

This module states what the virtual checks of an output port are resolved to, as a
relation between the gadgets of a run: the finished checks of the gadget at the port that
mention the virtual check, and what its unfinished checks that mention it are resolved
to.  The errors of a run are built from such sets, at any time and in any order of events.
-/

namespace QdkEc

open Option List

section Virtual

variable {K : Type} {types : JitTypes K} {gadgetType : JitGadgetType K}

/-- The number of virtual checks of an output port of a gadget type. -/
def virtualWidth (types : JitTypes K) (gadgetType : JitGadgetType K) (port : ℕ) : ℕ :=
  (gadgetType.base.gadgetType.outputs[port]?).elim 0 fun ptype =>
    (types.portTypes.lookup ptype).elim 0 JitPortType.stabilizers

theorem virtualOffset_succ (port : ℕ) : virtualOffset types gadgetType (port + 1) =
      virtualOffset types gadgetType port + virtualWidth types gadgetType port := by
  rw [virtualOffset, virtualOffset, virtualWidth, take_add_one, map_append, sum_append]
  cases gadgetType.base.gadgetType.outputs[port]? with
  | none => rfl
  | some ptype => simp

theorem virtualOffset_mono : Monotone (virtualOffset types gadgetType) :=
  monotone_nat_of_le_succ fun port => by
    rw [virtualOffset_succ]
    exact Nat.le_add_right _ _

theorem eq_of_virtualIndex_eq {port otherPort index otherIndex : ℕ}
    (hlt : index < virtualWidth types gadgetType port)
    (hlt' : otherIndex < virtualWidth types gadgetType otherPort)
    (heq : virtualIndex types gadgetType port index =
      virtualIndex types gadgetType otherPort otherIndex) :
    port = otherPort ∧ index = otherIndex := by
  rw [virtualIndex, virtualIndex] at heq
  have hport : port = otherPort := by
    by_contra hne
    rcases Nat.lt_or_gt_of_ne hne with h | h
    · have hle : virtualOffset types gadgetType (port + 1) ≤
          virtualOffset types gadgetType otherPort := virtualOffset_mono h
      rw [virtualOffset_succ] at hle
      omega
    · have hle : virtualOffset types gadgetType (otherPort + 1) ≤
          virtualOffset types gadgetType port := virtualOffset_mono h
      rw [virtualOffset_succ] at hle
      omega
  subst hport
  exact ⟨rfl, Nat.add_left_cancel heq⟩

end Virtual

section Fitted

variable {K : Type} {types : JitTypes K} {history : List GadgetRequest}

/-- The gadgets of a run fit together: a connector refers to an older gadget, no output port has two
of them, and a port has as many virtual checks as the port that is connected to it. -/
structure Fitted (types : JitTypes K) (history : List GadgetRequest) : Prop where
  nodup : (history.map GadgetRequest.gid).Nodup
  older : history.Pairwise fun newer older =>
    ∀ connector ∈ older.connectors, connector.gid ≠ newer.gid
  other : ∀ request ∈ history, ∀ connector ∈ request.connectors, connector.gid ≠ request.gid
  unique : ∀ request ∈ history, ∀ request' ∈ history, ∀ (inputPort inputPort' : ℕ) connector,
    request.connectors[inputPort]? = some connector →
      request'.connectors[inputPort']? = some connector →
        request = request' ∧ inputPort = inputPort'
  widths : ∀ request ∈ history, ∃ gadgetType inputMap,
    types.gadgetTypes.lookup request.gtype = some gadgetType ∧
      inputVirtualCheckMap gadgetType types.portTypes = some inputMap ∧
        ∀ (inputPort : ℕ) connector, request.connectors[inputPort]? = some connector →
          ∃ source ∈ history, source.gid = connector.gid ∧ ∃ sourceType,
            types.gadgetTypes.lookup source.gtype = some sourceType ∧ ∃ entries,
              inputMap[inputPort]? = some entries ∧
                entries.length = virtualWidth types sourceType connector.port

theorem Fitted.eq_of_gid_eq (hfitted : Fitted types history) {request request' : GadgetRequest}
    (hrequest : request ∈ history) (hrequest' : request' ∈ history)
    (hgid : request.gid = request'.gid) : request = request' :=
  inj_on_of_nodup_map hfitted.nodup hrequest hrequest' hgid

theorem Fitted.mention_lt (hfitted : Fitted types history) {source request : GadgetRequest}
    (hsource : source ∈ history) (hrequest : request ∈ history)
    {sourceType gadgetType : JitGadgetType K}
    (hsourceType : types.gadgetTypes.lookup source.gtype = some sourceType)
    (htype : types.gadgetTypes.lookup request.gtype = some gadgetType) {check : JitCheck}
    (hcheck : check ∈ gadgetType.finishedChecks ++ gadgetType.unfinishedChecks)
    {inputPort index port : ℕ} (hmem : ⟨some inputPort, index⟩ ∈ check.measurements)
    (hconnector : request.connectors[inputPort]? = some ⟨source.gid, port⟩) :
    index < virtualWidth types sourceType port := by
  obtain ⟨gadgetType', inputMap, htype', hmap, hwidths⟩ := hfitted.widths request hrequest
  rw [htype] at htype'
  cases htype'
  obtain ⟨source', hsource', hgid, sourceType', hsourceType', entries, hentries, hlength⟩ :=
    hwidths inputPort _ hconnector
  cases hfitted.eq_of_gid_eq hsource' hsource hgid
  rw [hsourceType] at hsourceType'
  cases hsourceType'
  have hsome := isSome_referencesAt_of_mention hmap hcheck hmem
  rw [referencesAt, hentries, bind_some, isSome_getElem?] at hsome
  rwa [← hlength]

end Fitted

section Resolved

variable {K : Type} {types : JitTypes K} {history : List GadgetRequest}

/-- The finished checks of a gadget that mention a virtual check of an input port. -/
def finishedReferences (gadgetType : JitGadgetType K) (gid inputPort index : ℕ) :
    Finset ExplicitCheck :=
  (referencesTo gadgetType.finishedChecks inputPort index).foldl
    (fun checks checkIndex => insert ⟨gid, checkIndex⟩ checks) ∅

/-- What a virtual check of an input port is resolved to. -/
def sumOfReferences (gadgetType : JitGadgetType K) (gid inputPort index : ℕ)
    (resolved : ℕ → Finset ExplicitCheck) :
    Finset ExplicitCheck :=
  (referencesTo gadgetType.unfinishedChecks inputPort index).foldl
    (fun sum checkIndex => symmDiff sum (resolved checkIndex))
    (finishedReferences gadgetType gid inputPort index)

/-- An unfinished check of a gadget is resolved to a set of checks. -/
inductive Resolved (types : JitTypes K) (history : List GadgetRequest) :
    GadgetRequest → ℕ → Finset ExplicitCheck → Prop
  | intro
      {source peer : GadgetRequest}
      {sourceType peerType : JitGadgetType K}
      {inputPort port index : ℕ}
      {resolved : ℕ → Finset ExplicitCheck}
      (hsource : source ∈ history)
      (hpeer : peer ∈ history)
      (hsourceType : types.gadgetTypes.lookup source.gtype = some sourceType)
      (hpeerType : types.gadgetTypes.lookup peer.gtype = some peerType)
      (hconnector : peer.connectors[inputPort]? = some ⟨source.gid, port⟩)
      (hlt : index < virtualWidth types sourceType port)
      (hunfinished : ∀ checkIndex ∈ referencesTo peerType.unfinishedChecks inputPort index,
        Resolved types history peer checkIndex (resolved checkIndex)) :
      Resolved types history source (virtualIndex types sourceType port index)
        (sumOfReferences peerType peer.gid inputPort index resolved)

variable {source : GadgetRequest} {index : ℕ} {checks : Finset ExplicitCheck}

theorem Resolved.cons (h : Resolved types history source index checks) (request : GadgetRequest) :
    Resolved types (request :: history) source index checks := by
  induction h with
  | intro hsource hpeer hsourceType hpeerType hconnector hlt hunfinished ih =>
    exact .intro (mem_cons_of_mem _ hsource) (mem_cons_of_mem _ hpeer) hsourceType
      hpeerType hconnector hlt ih

theorem Resolved.unique {history' : List GadgetRequest} (hfitted : Fitted types history)
    (hsubset : history' ⊆ history) (h : Resolved types history source index checks)
    {checks' : Finset ExplicitCheck} (h' : Resolved types history' source index checks') :
    checks = checks' := by
  induction h generalizing checks' with
  | @intro source peer sourceType peerType inputPort port index resolved hsource hpeer hsourceType
      hpeerType hconnector hlt hunfinished ih =>
      generalize hvirtual : virtualIndex types sourceType port index = virtual at h'
      obtain ⟨hsource', hpeer', hsourceType', hpeerType', hconnector', hlt', hunfinished'⟩ := h'
      rw [hsourceType] at hsourceType'
      cases hsourceType'
      obtain ⟨rfl, rfl⟩ := eq_of_virtualIndex_eq hlt hlt' hvirtual
      obtain ⟨rfl, rfl⟩ := hfitted.unique _ hpeer _ (hsubset hpeer') _ _ _ hconnector hconnector'
      rw [hpeerType] at hpeerType'
      cases hpeerType'
      exact foldl_ext _ _ _ fun sum checkIndex hmem =>
        congrArg (symmDiff sum) (ih checkIndex hmem (hunfinished' checkIndex hmem))

end Resolved

section Loops

variable {A : Type} [DecidableEq A] {setOf : ℕ → Option (Finset A)} {indices : List ℕ}
  {initial result : Finset A}

theorem foldlM_symmDiff_eq
    (hrun : indices.foldlM (fun sum i => (setOf i).map (symmDiff sum)) initial = some result) :
    (∀ i ∈ indices, setOf i = some ((setOf i).getD ∅)) ∧
      indices.foldl (fun sum i => symmDiff sum ((setOf i).getD ∅)) initial = result := by
  induction indices generalizing initial with
  | nil =>
    cases hrun
    exact ⟨fun i hi => absurd hi not_mem_nil, rfl⟩
  | cons i indices ih =>
    obtain ⟨middle, hmiddle, hrun⟩ := bind_eq_some_iff.mp hrun
    obtain ⟨set, hset, rfl⟩ := map_eq_some_iff.mp hmiddle
    obtain ⟨hfound, hresult⟩ := ih hrun
    have hself : setOf i = some ((setOf i).getD ∅) := by rw [hset, getD_some]
    refine ⟨forall_mem_cons.mpr ⟨hself, hfound⟩, ?_⟩
    rw [foldl_cons, hset, getD_some, hresult]

end Loops

variable {gid : ℕ}

section Resolve

variable {K : Type} {types : JitTypes K} {history : List GadgetRequest}

theorem resolveVirtualCheck_eq {peerChecks : Option (List (Finset ExplicitCheck))}
    {references : CheckReferences} {checks : Finset ExplicitCheck}
    (hrun : JitCompiler.resolveVirtualCheck gid peerChecks references = some (some checks)) :
    references.unfinishedChecks.foldlM
      (fun sum i => (peerChecks.bind fun peerChecks => peerChecks[i]?).map (symmDiff sum))
      (references.finishedChecks.foldl
        (fun checks checkIndex => insert (⟨gid, checkIndex⟩ : ExplicitCheck) checks) ∅) =
          some checks := by
  unfold JitCompiler.resolveVirtualCheck at hrun
  split at hrun
  · rename_i hnil
    rw [hnil, foldlM_nil]
    exact some_inj.mp hrun
  · split at hrun
    · cases hrun
    · obtain ⟨resolved, hresolved, hrun⟩ := bind_eq_some_iff.mp hrun
      cases hrun
      exact hresolved

theorem resolveVirtualCheck_resolved {source peer : GadgetRequest}
    {sourceType peerType : JitGadgetType K} {inputPort port index : ℕ} (hsource : source ∈ history)
    (hpeer : peer ∈ history) (hsourceType : types.gadgetTypes.lookup source.gtype = some sourceType)
    (hpeerType : types.gadgetTypes.lookup peer.gtype = some peerType)
    (hconnector : peer.connectors[inputPort]? = some ⟨source.gid, port⟩)
    (hlt : index < virtualWidth types sourceType port)
    {peerChecks : Option (List (Finset ExplicitCheck))}
    (hpublished : ∀ checks, peerChecks = some checks → ∀ (checkIndex : ℕ) set,
      checks[checkIndex]? = some set → Resolved types history peer checkIndex set)
    {checks : Finset ExplicitCheck} (hrun : JitCompiler.resolveVirtualCheck peer.gid peerChecks
      ⟨referencesTo peerType.finishedChecks inputPort index,
        referencesTo peerType.unfinishedChecks inputPort index⟩ = some (some checks)) :
    Resolved types history source (virtualIndex types sourceType port index) checks := by
  obtain ⟨hfound, rfl⟩ := foldlM_symmDiff_eq (resolveVirtualCheck_eq hrun)
  refine .intro hsource hpeer hsourceType hpeerType hconnector hlt fun checkIndex hmem => ?_
  obtain ⟨published, hpeerChecks, hget⟩ := bind_eq_some_iff.mp (hfound checkIndex hmem)
  exact hpublished published hpeerChecks checkIndex _ hget

end Resolve

section Fit

variable {K : Type} {types : JitTypes K} {history : List GadgetRequest}
  {gadgets : GidMap JitGadgetState}

theorem Wired.unique (hwired : Wired types history gadgets) {request request' : GadgetRequest}
    (hrequest : request ∈ history) (hrequest' : request' ∈ history) {inputPort inputPort' : ℕ}
    {connector : Connector} (hconnector : request.connectors[inputPort]? = some connector)
    (hconnector' : request'.connectors[inputPort']? = some connector) :
    request = request' ∧ inputPort = inputPort' := by
  have hmem := hwired.peers request hrequest connector (mem_of_getElem? hconnector)
  rw [← hwired.mem_gadgets, ← AList.lookup_isSome, isSome_iff_exists] at hmem
  obtain ⟨state, hstate⟩ := hmem
  have hport := (hwired.output connector.gid state hstate connector.port
    ⟨request.gid, inputPort⟩).mpr ⟨request, hrequest, rfl, hconnector⟩
  have hport' := (hwired.output connector.gid state hstate connector.port
    ⟨request'.gid, inputPort'⟩).mpr ⟨request', hrequest', rfl, hconnector'⟩
  rw [hport, some_inj, some_inj, Connector.mk.injEq] at hport'
  exact ⟨inj_on_of_nodup_map hwired.nodup hrequest hrequest' hport'.1, hport'.2⟩

/-- An unconnected output port has all its checks. -/
def FreeWidths (types : JitTypes K) (history : List GadgetRequest)
    (gadgets : GidMap JitGadgetState) :
    Prop :=
  ∀ request ∈ history, ∀ state, gadgets.lookup request.gid = some state → ∀ gadgetType,
    types.gadgetTypes.lookup request.gtype = some gadgetType → ∀ (port : ℕ) portChecks,
      state.outputs[port]? = some none → state.outputChecks[port]? = some portChecks →
        portChecks.length = virtualWidth types gadgetType port

theorem connectInputs_lengths {inputMap : InputVirtualCheckMap} {connections : List (Connector × ℕ)}
    {connected : GidMap JitGadgetState × List (List (Finset ExplicitMeasurement × Bool))}
    (hrun : connections.foldlM (JitCompiler.connectInput gid inputMap) (gadgets, []) =
      some connected) : List.Forall₂ (fun connection portChecks => ∃ entries,
      inputMap[connection.2]? = some entries ∧ entries.length = portChecks.length)
      connections connected.2 := by
  refine foldlM_induction (fun done connected => List.Forall₂ (fun connection portChecks =>
    ∃ entries, inputMap[connection.2]? = some entries ∧ entries.length = portChecks.length)
      done connected.2) .nil ?_ hrun
  intro done connection before after hbefore hstep
  obtain ⟨peer, -, hstep⟩ := bind_eq_some_iff.mp hstep
  obtain ⟨_, -, hstep⟩ := bind_eq_some_iff.mp hstep
  obtain ⟨peerChecks, -, hstep⟩ := bind_eq_some_iff.mp hstep
  obtain ⟨entries, hentries, hstep⟩ := bind_eq_some_iff.mp hstep
  obtain ⟨_, hguard, hstep⟩ := bind_eq_some_iff.mp hstep
  cases hstep
  have hlength : entries.length = peerChecks.length := (guard_eq_some' _).mp hguard
  exact rel_append hbefore (.cons ⟨entries, hentries, hlength⟩ .nil)

theorem exists_entries_of_connectInputs {inputMap : InputVirtualCheckMap}
    {connectors : List Connector}
    {connected : GidMap JitGadgetState × List (List (Finset ExplicitMeasurement × Bool))}
    (hrun : connectors.zipIdx.foldlM (JitCompiler.connectInput gid inputMap) (gadgets, []) =
      some connected) {inputPort : ℕ} {portChecks : List (Finset ExplicitMeasurement × Bool)}
    (htaken : connected.2[inputPort]? = some portChecks) :
    ∃ entries, inputMap[inputPort]? = some entries ∧ entries.length = portChecks.length := by
  have hlengths := connectInputs_lengths hrun
  obtain ⟨hlt, rfl⟩ := List.getElem?_eq_some_iff.mp htaken
  have hlt' : inputPort < connectors.zipIdx.length := by rwa [hlengths.length_eq]
  obtain ⟨entries, hentries, hlength⟩ := hlengths.get hlt' hlt
  rw [List.get_eq_getElem, List.getElem_zipIdx, zero_add] at hentries
  exact ⟨entries, hentries, hlength⟩

theorem length_splitOutputChecks {A : Type} {counts : List ℕ} {checks : List A}
    {split : List (List A)} (hsplit : splitOutputChecks counts checks = some split) :
    counts = split.map List.length := by
  induction counts generalizing checks split with
  | nil =>
    cases checks with
    | nil =>
      cases hsplit
      rfl
    | cons check checks => cases hsplit
  | cons count counts ih =>
    obtain ⟨_, hguard, hsplit⟩ := bind_eq_some_iff.mp hsplit
    obtain ⟨rest, hrest, hsplit⟩ := bind_eq_some_iff.mp hsplit
    cases hsplit
    have hle : count ≤ checks.length := (guard_eq_some' _).mp hguard
    rw [map_cons, length_take, Nat.min_eq_left hle, ← ih hrest]

variable {request : GadgetRequest} {gadgetType : JitGadgetType K} {compiler : JitCompiler K}
  {inputMap : InputVirtualCheckMap}
  {connected : GidMap JitGadgetState × List (List (Finset ExplicitMeasurement × Bool))}
  {orders : List (List ExplicitMeasurement)} {result : JitCompiler K × Compiled K}
  {outputChecks : List (List (Finset ExplicitMeasurement × Bool))}

theorem FreeWidths.compile (hfree : FreeWidths types history compiler.gadgets)
    (hwired : Wired types history compiler.gadgets) (htypes : compiler.types.SameTypes types)
    (hcompiles : Compiles compiler request orders result gadgetType inputMap connected outputChecks)
    (hnew : request.gid ∉ compiler.gadgets) :
    FreeWidths types (request :: history) result.1.gadgets := by
  intro other hother state hstate otherType hotherType port portChecks hport hchecks
  by_cases hgid : other.gid = request.gid
  · -- The ports of the new gadget.
    have hsame : other = request := by
      rcases mem_cons.mp hother with rfl | hother
      · rfl
      · exact absurd (hgid ▸ (hwired.mem_gadgets _).mpr (mem_map_of_mem hother)) hnew
    subst hsame
    rw [hcompiles.gadgets_eq, AList.lookup_insert] at hstate
    cases hstate
    have htype := hcompiles.gadgetType_eq
    rw [htypes.gadgetTypes, hotherType] at htype
    cases htype
    obtain ⟨counts, unfinished, hcounts, -, hsplit⟩ := hcompiles.outputChecks_eq
    rw [htypes.portTypes] at hcounts
    have hlength : counts[port]? = some portChecks.length := by
      rw [length_splitOutputChecks hsplit, getElem?_map, hchecks, map_some]
    obtain ⟨ptype, hptype, hlookup⟩ := exists_getElem?_of_mapM hcounts hlength
    obtain ⟨portType, hportType, hwidth⟩ := map_eq_some_iff.mp hlookup
    rw [virtualWidth, hptype, elim_some, hportType, elim_some, hwidth]
  · have hother : other ∈ history := (mem_cons.mp hother).resolve_left fun heq =>
      hgid (congrArg GadgetRequest.gid heq)
    obtain ⟨old, hold, hreconnected⟩ := hcompiles.exists_old hgid hstate
    obtain ⟨hfree', hsame⟩ := hreconnected.free port hport
    exact hfree other hother old hold otherType hotherType port portChecks hfree' (hsame ▸ hchecks)

theorem Fitted.compile (hfitted : Fitted types history)
    (hfree : FreeWidths types history compiler.gadgets)
    (hwired : Wired types history compiler.gadgets) (htypes : compiler.types.SameTypes types)
    (hcache : compiler.types.CacheCorrect)
    (hcompiles : Compiles compiler request orders result gadgetType inputMap connected outputChecks)
    (hnew : request.gid ∉ compiler.gadgets) : Fitted types (request :: history) := by
  have hwired' := hwired.compile htypes hcache hcompiles hnew
  have hconnects := connectInputs_connects hcompiles.connected_eq
  have hfresh : request.gid ∉ history.map GadgetRequest.gid := by rwa [← hwired.mem_gadgets]
  refine ⟨hwired'.nodup, pairwise_cons.mpr ⟨?_, hfitted.older⟩, ?_, ?_, ?_⟩
  · intro older holder connector hconnector heq
    exact hfresh (heq ▸ hwired.peers older holder connector hconnector)
  · intro other hother connector hconnector heq
    rcases mem_cons.mp hother with rfl | hother
    · exact hfresh (heq ▸ hwired.mem_of_connector hconnects hconnector)
    · exact hfitted.other other hother connector hconnector heq
  · intro other hother other' hother' inputPort inputPort' connector hconnector hconnector'
    exact hwired'.unique hother hother' hconnector hconnector'
  · -- The ports that are connected.
    intro other hother
    rcases mem_cons.mp hother with rfl | hother
    · obtain ⟨-, -, hmap⟩ := getInputVirtualCheckMap_spec hcache hcompiles.gadgetType_eq
        hcompiles.inputMap_eq
      rw [htypes.portTypes] at hmap
      have htype := hcompiles.gadgetType_eq
      rw [htypes.gadgetTypes] at htype
      refine ⟨gadgetType, inputMap, htype, hmap, fun inputPort connector hconnector => ?_⟩
      obtain ⟨portChecks, peer, htaken, hpeer, hport, hchecks⟩ := hconnects.exists_peer hconnector
      have hgid := hwired.mem_of_connector hconnects (mem_of_getElem? hconnector)
      obtain ⟨source, hsource, hgid⟩ := mem_map.mp hgid
      rw [← hgid] at hpeer
      obtain ⟨sourceType, hsourceType, -⟩ := hwired.gadget source hsource peer hpeer
      have hwidth := hfree source hsource peer hpeer sourceType hsourceType _ _ hport hchecks
      obtain ⟨entries, hentries, hlength⟩ :=
        exists_entries_of_connectInputs hcompiles.connected_eq htaken
      exact ⟨source, mem_cons_of_mem _ hsource, hgid, sourceType, hsourceType, entries,
        hentries, hlength.trans hwidth⟩
    · obtain ⟨otherType, otherMap, htype, hmap, hwidths⟩ := hfitted.widths other hother
      refine ⟨otherType, otherMap, htype, hmap, fun inputPort connector hconnector => ?_⟩
      obtain ⟨source, hsource, h⟩ := hwidths inputPort connector hconnector
      exact ⟨source, mem_cons_of_mem _ hsource, h⟩

end Fit

section Run

variable {K : Type} {types : JitTypes K} {history : List GadgetRequest}

/-- Sets that the first unfinished checks of a gadget are resolved to. -/
def ResolveTo (types : JitTypes K) (history : List GadgetRequest) (source : GadgetRequest)
    (resolved : List (Finset ExplicitCheck)) :
    Prop :=
  ∀ (index : ℕ) set, resolved[index]? = some set → Resolved types history source index set

theorem ResolveTo.cons {source : GadgetRequest} {resolved : List (Finset ExplicitCheck)}
    (h : ResolveTo types history source resolved) (request : GadgetRequest) :
    ResolveTo types (request :: history) source resolved :=
  fun index set hset => (h index set hset).cons request

def ErrorModelType.BuiltFrom (types : JitTypes K) (history : List GadgetRequest) (gid : ℕ)
    (errorModelType : ErrorModelType K) :
    Prop :=
  ∃ request ∈ history, request.gid = gid ∧ ∃ gadgetType,
    types.gadgetTypes.lookup request.gtype = some gadgetType ∧ ∃ resolved orders,
      resolved.length = gadgetType.unfinishedChecks.length ∧
        ResolveTo types history request resolved ∧
          JitCompiler.buildErrorModelType gid gadgetType.errors resolved orders =
            some errorModelType

theorem ErrorModelType.BuiltFrom.cons {errorModelType : ErrorModelType K}
    (h : errorModelType.BuiltFrom types history gid) (request : GadgetRequest) :
    errorModelType.BuiltFrom types (request :: history) gid := by
  obtain
    ⟨source, hsource, hgid, gadgetType, htype, resolved, orders, hlength, hresolves, hbuild⟩ := h
  exact ⟨source, mem_cons_of_mem _ hsource, hgid, gadgetType, htype, resolved, orders, hlength,
    hresolves.cons request, hbuild⟩

/-- Errors that wait belong to a gadget, and what is resolved of them stands for the virtual checks of
its first output ports. -/
def ErrorModelFuture.Resolves (types : JitTypes K) (history : List GadgetRequest) (gid : ℕ)
    (future : ErrorModelFuture K) :
    Prop :=
  ∃ request ∈ history, request.gid = gid ∧
    types.gadgetTypes.lookup request.gtype = some future.gadgetType ∧
      future.resolved.length = virtualOffset types future.gadgetType future.ports ∧
        ResolveTo types history request future.resolved

/-- What holds of the errors at any time of a run. -/
structure JitRun.Resolving (types : JitTypes K) (run : JitRun K) : Prop where
  fitted : Fitted types run.history
  free : FreeWidths types run.history run.compiler.gadgets
  published : ∀ request ∈ run.history, ∀ state,
    run.compiler.gadgets.lookup request.gid = some state →
      ∀ checks, state.outputVirtualChecks = some checks →
        ResolveTo types run.history request checks
  futures : ∀ gid future, run.futures.lookup gid = some future →
    future.Resolves types run.history gid
  compiled : ∀ gid errorModelType, run.errorModelTypes.lookup gid = some errorModelType →
    errorModelType.BuiltFrom types run.history gid

variable {run after : JitRun K}

theorem JitRun.resolving_new (types initial : JitTypes K) : (new initial).Resolving types where
  fitted := ⟨nodup_nil, List.Pairwise.nil, fun _ h => absurd h not_mem_nil,
    fun _ h => absurd h not_mem_nil, fun _ h => absurd h not_mem_nil⟩
  free _ h := absurd h not_mem_nil
  published _ h := absurd h not_mem_nil
  futures _ _ h := by cases h
  compiled _ _ h := by cases h

theorem JitRun.Resolving.compile (h : run.Resolving types) (hsound : run.Sound types)
    {instruction : JitInstruction K} {orders : List (List ExplicitMeasurement)}
    (hcompile : run.compile instruction orders = some after) : after.Resolving types := by
  obtain ⟨result, hresult, hcompile⟩ := bind_eq_some_iff.mp hcompile
  obtain ⟨_, hguard, hcompile⟩ := bind_eq_some_iff.mp hcompile
  have hnew := (guard_eq_some' _).mp hguard
  cases hcompile
  obtain ⟨gadgetType, inputMap, connected, outputChecks, hcompiles⟩ := compile_compiles hresult
  have htype := hcompiles.gadgetType_eq
  rw [hsound.sameTypes.gadgetTypes] at htype
  have hfitted := h.fitted.compile h.free hsound.wired hsound.sameTypes hsound.cache hcompiles hnew
  refine ⟨hfitted, h.free.compile hsound.wired hsound.sameTypes hcompiles hnew,
    fun request hrequest state hstate checks hchecks => ?_, fun gid future hfuture => ?_,
    fun gid errorModelType hlookup => ?_⟩
  · by_cases hgid : request.gid = result.2.gadget.gid
    · rw [hgid, hcompiles.gadgets_eq, AList.lookup_insert] at hstate
      cases hstate
      cases hchecks
    · obtain ⟨old, hold, hreconnected⟩ := hcompiles.exists_old hgid hstate
      have hmem : request ∈ run.history := (mem_cons.mp hrequest).resolve_left fun heq =>
        hgid (congrArg GadgetRequest.gid heq)
      exact (h.published request hmem old hold checks
        (hreconnected.outputVirtualChecks ▸ hchecks)).cons result.2.gadget
  · by_cases hgid : gid = result.2.gadget.gid
    · subst hgid
      rw [AList.lookup_insert] at hfuture
      cases hfuture
      obtain ⟨probabilityModifier, hnewFuture⟩ := hcompiles.future_eq
      rw [hnewFuture]
      exact ⟨_, mem_cons_self, rfl, htype, rfl, fun _ _ hset => by cases hset⟩
    · rw [AList.lookup_insert_ne hgid] at hfuture
      obtain ⟨request, hrequest, hgid, hfutureType, hlength, hresolves⟩ :=
        h.futures gid future hfuture
      exact ⟨request, mem_cons_of_mem _ hrequest, hgid, hfutureType, hlength,
        hresolves.cons result.2.gadget⟩
  · exact (h.compiled gid errorModelType hlookup).cons result.2.gadget

theorem JitRun.Resolving.resolvePort (h : run.Resolving types) (hsound : run.Sound types)
    {future : ErrorModelFuture K} (hfuture : run.futures.lookup gid = some future)
    (hresolve : run.resolvePort gid future = some after) : after.Resolving types := by
  obtain ⟨resolved, hresolved, hresolve⟩ := bind_eq_some_iff.mp hresolve
  obtain ⟨checks, hchecks, hresolve⟩ := bind_eq_some_iff.mp hresolve
  cases hresolve
  subst hchecks
  obtain ⟨source, hsource, rfl, hsourceType, hlength, hresolves⟩ := h.futures gid future hfuture
  refine ⟨h.fitted, h.free, h.published, fun other otherFuture hother => ?_, h.compiled⟩
  by_cases hgid : other = source.gid
  · subst hgid
    rw [AList.lookup_insert] at hother
    cases hother
    -- The gadget at the output port.
    obtain ⟨gadget, hgadget, hresolved⟩ := bind_eq_some_iff.mp hresolved
    obtain ⟨output, houtput, hresolved⟩ := bind_eq_some_iff.mp hresolved
    cases output with
    | none => cases hresolved
    | some connector =>
      obtain ⟨peerState, hpeerState, hresolved⟩ := bind_eq_some_iff.mp hresolved
      obtain ⟨entries, hentries, hresolved⟩ := bind_eq_some_iff.mp hresolved
      obtain ⟨results, hresults, hresolved⟩ := bind_eq_some_iff.mp hresolved
      have hall := some_inj.mp hresolved
      obtain ⟨peer, hpeer, hpeerGid, hconnector⟩ :=
        (hsound.wired.output source.gid gadget hgadget future.ports connector).mp houtput
      rw [← hpeerGid] at hpeerState hresults
      obtain ⟨peerType, hpeerType, -, hmap, -⟩ := hsound.wired.gadget peer hpeer peerState
        hpeerState
      obtain ⟨peerType', inputMap, hpeerType', hmap', hwidths⟩ := h.fitted.widths peer hpeer
      rw [hpeerType] at hpeerType'
      cases hpeerType'
      rw [hmap] at hmap'
      cases hmap'
      obtain ⟨source', hsource', hgid', sourceType', hsourceType', entries', hentries', hwidth⟩ :=
        hwidths connector.port _ hconnector
      cases h.fitted.eq_of_gid_eq hsource' hsource hgid'
      rw [hsourceType] at hsourceType'
      cases hsourceType'
      rw [hentries] at hentries'
      cases hentries'
      have hlengths : checks.length = virtualWidth types future.gadgetType future.ports := by
        rw [← hwidth, ← (mapM_eq_some_iff.mp hall).length_eq,
          (mapM_eq_some_iff.mp hresults).length_eq]
      refine ⟨source, hsource, rfl, hsourceType, ?_, fun index set hset => ?_⟩
      · dsimp only
        rw [length_append, hlength, hlengths, virtualOffset_succ]
      · dsimp only at hset
        rcases Nat.lt_or_ge index future.resolved.length with hlt | hge
        · rw [getElem?_append_left hlt] at hset
          exact hresolves index set hset
        · rw [getElem?_append_right hge] at hset
          obtain ⟨result, hresult, hid⟩ := exists_getElem?_of_mapM hall hset
          obtain ⟨references, hreferences, hrun⟩ := exists_getElem?_of_mapM hresults hresult
          obtain rfl : result = some set := hid
          have hspec := referencesAt_inputVirtualCheckMap hmap
            (by rw [referencesAt, hentries, bind_some]; exact hreferences)
          subst hspec
          obtain ⟨hltEntries, -⟩ := List.getElem?_eq_some_iff.mp hreferences
          have hindex : index = virtualIndex types future.gadgetType future.ports
              (index - future.resolved.length) := by
            rw [virtualIndex, ← hlength, Nat.add_sub_cancel' hge]
          rw [hindex]
          exact resolveVirtualCheck_resolved hsource hpeer hsourceType hpeerType hconnector
            (hwidth ▸ hltEntries) (fun published hpublished =>
              h.published peer hpeer peerState hpeerState published hpublished) hrun
  · rw [AList.lookup_insert_ne hgid] at hother
    exact h.futures other otherFuture hother

theorem JitRun.Resolving.finish (h : run.Resolving types) {future : ErrorModelFuture K}
    (hfuture : run.futures.lookup gid = some future) {orders : List (List ExplicitCheck)}
    (hfinish : run.finish gid future orders = some after) : after.Resolving types := by
  obtain ⟨_, hguard, hfinish⟩ := bind_eq_some_iff.mp hfinish
  have hlength := (guard_eq_some' _).mp hguard
  obtain ⟨compiler, hpublish, hfinish⟩ := bind_eq_some_iff.mp hfinish
  obtain ⟨errorModelType, hbuild, hfinish⟩ := bind_eq_some_iff.mp hfinish
  cases hfinish
  obtain ⟨gadget, hgadget, hpublish⟩ := bind_eq_some_iff.mp hpublish
  cases hpublish
  obtain ⟨source, hsource, rfl, hsourceType, -, hresolves⟩ := h.futures gid future hfuture
  refine ⟨h.fitted, fun request hrequest state hstate => ?_,
    fun request hrequest state hstate checks hchecks => ?_,
    fun other otherFuture hother => ?_, fun other otherType hother => ?_⟩
  · by_cases hgid : request.gid = source.gid
    · rw [hgid, AList.lookup_insert] at hstate
      cases hstate
      exact h.free request hrequest gadget (hgid ▸ hgadget)
    · rw [AList.lookup_insert_ne hgid] at hstate
      exact h.free request hrequest state hstate
  · by_cases hgid : request.gid = source.gid
    · cases h.fitted.eq_of_gid_eq hrequest hsource hgid
      rw [AList.lookup_insert] at hstate
      cases hstate
      cases hchecks
      exact hresolves
    · rw [AList.lookup_insert_ne hgid] at hstate
      exact h.published request hrequest state hstate checks hchecks
  · by_cases hgid : other = source.gid
    · subst hgid
      rw [AList.lookup_erase] at hother
      cases hother
    · rw [AList.lookup_erase_ne hgid] at hother
      exact h.futures other otherFuture hother
  · by_cases hgid : other = source.gid
    · subst hgid
      rw [AList.lookup_insert] at hother
      cases hother
      exact ⟨source, hsource, rfl, future.gadgetType, hsourceType, future.resolved, orders, hlength,
        hresolves, hbuild⟩
    · rw [AList.lookup_insert_ne hgid] at hother
      exact h.compiled other otherType hother

theorem JitRun.Resolving.step (h : run.Resolving types) (hsound : run.Sound types)
    {event : JitEvent K} (hstep : run.step event = some after) : after.Resolving types := by
  cases event with
  | compile instruction orders => exact h.compile hsound hstep
  | advance gid orders =>
    obtain ⟨future, hfuture, hstep⟩ := bind_eq_some_iff.mp hstep
    split at hstep
    · exact h.resolvePort hsound hfuture hstep
    · exact h.finish hfuture hstep

theorem JitRun.resolving_of_run {initial : JitTypes K} (hsame : initial.SameTypes types)
    (hcache : initial.CacheCorrect) {events : List (JitEvent K)}
    (hrun : JitRun.run initial events = some run) : run.Resolving types :=
  (foldlM_induction (fun _ run => run.Sound types ∧ run.Resolving types)
    ⟨sound_new hsame hcache, resolving_new types initial⟩
    (fun _ _ _ _ hbefore hstep => ⟨hbefore.1.step hstep, hbefore.2.step hbefore.1 hstep⟩) hrun).2

end Run

end QdkEc
