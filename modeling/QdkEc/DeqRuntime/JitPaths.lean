import QdkEc.DeqRuntime.JitResolution

/-!
# Reference paths

This module counts reference paths.  A path goes from an unfinished check of a gadget to
each check of the gadget at its output port that mentions the virtual check, once for
each mention; it ends at a finished check, or goes on from an unfinished one.  What an
unfinished check is resolved to are the checks to which an odd number of paths leads.
-/

namespace QdkEc

open List

section Paths

variable {K : Type} (types : JitTypes K)

/-- A measurement of a check is a virtual check of another gadget, and that is one of its unfinished
checks. -/
def mentionsUnfinished (source : GadgetRequest) (index : ℕ) (request : GadgetRequest)
    (measurement : PresentMeasurement) :
    Bool :=
  measurement.inputPort.elim false fun inputPort =>
    (request.connectors[inputPort]?).elim false fun connector =>
      (types.gadgetTypes.lookup source.gtype).elim false fun sourceType =>
        connector.gid = source.gid &&
          virtualIndex types sourceType connector.port measurement.measurementIndex = index

/-- How often a check of a gadget mentions an unfinished check of another one. -/
def mentionCount (source : GadgetRequest) (index : ℕ) (request : GadgetRequest) (check : JitCheck) :
    ℕ :=
  check.measurements.countP (mentionsUnfinished types source index request)

/-- The number of paths from an unfinished check of a gadget to a finished check; the gadgets that are
passed are in the order in which they were compiled. -/
def pathCount : List GadgetRequest → GadgetRequest → ℕ → ExplicitCheck → ℕ
  | [], _, _, _ => 0
  | request :: later, source, index, target =>
    ((types.gadgetTypes.lookup request.gtype).elim 0 fun gadgetType =>
      (if target.cid = request.gid then
        (gadgetType.finishedChecks[target.checkIndex]?).elim 0
          (mentionCount types source index request)
      else 0) +
      (gadgetType.unfinishedChecks.zipIdx.map fun check =>
        mentionCount types source index request check.1 *
          pathCount later request check.2 target).sum) +
    pathCount later source index target

/-- The number of paths from the checks of an error to a finished check. -/
def errorPathCount (gadgets : List GadgetRequest) (source : GadgetRequest)
    (references : CheckReferences) (target : ExplicitCheck) :
    ℕ :=
  (if target.cid = source.gid then references.finishedChecks.count target.checkIndex else 0) +
    (references.unfinishedChecks.map fun index => pathCount types gadgets source index target).sum

end Paths

variable {request : GadgetRequest}

section Unmentioned

variable {K : Type} {types : JitTypes K} {source : GadgetRequest} {index : ℕ}

/-- No check of a gadget mentions an unfinished check. -/
def Unmentioned (types : JitTypes K) (source : GadgetRequest) (index : ℕ)
    (request : GadgetRequest) :
    Prop :=
  ∀ gadgetType, types.gadgetTypes.lookup request.gtype = some gadgetType →
    ∀ check ∈ gadgetType.finishedChecks ++ gadgetType.unfinishedChecks,
      mentionCount types source index request check = 0

theorem pathCount_cons_of_unmentioned
    (h : Unmentioned types source index request) (later : List GadgetRequest)
    (target : ExplicitCheck) : pathCount types (request :: later) source index target =
      pathCount types later source index target := by
  rw [pathCount, Nat.add_eq_right]
  cases htype : types.gadgetTypes.lookup request.gtype with
  | none => rfl
  | some gadgetType =>
    have hcheck := h gadgetType htype
    rw [Option.elim_some, Nat.add_eq_zero_iff]
    constructor
    · split
      · cases hget : gadgetType.finishedChecks[target.checkIndex]? with
        | none => rfl
        | some check => exact hcheck check (mem_append_left _ (mem_of_getElem? hget))
      · rfl
    · refine sum_eq_zero fun count hcount => ?_
      obtain ⟨check, hmem, rfl⟩ := mem_map.mp hcount
      have hget := mk_mem_zipIdx_iff_getElem?.mp hmem
      rw [hcheck check.1 (mem_append_right _ (mem_of_getElem? hget)), Nat.zero_mul]

theorem pathCount_append_of_unmentioned {before : List GadgetRequest}
    (h : ∀ request ∈ before, Unmentioned types source index request) (later : List GadgetRequest)
    (target : ExplicitCheck) : pathCount types (before ++ later) source index target =
      pathCount types later source index target := by
  induction before with
  | nil => rfl
  | cons request before ih =>
    rw [cons_append, pathCount_cons_of_unmentioned (h request mem_cons_self),
      ih fun other hother => h other (mem_cons_of_mem request hother)]

theorem pathCount_eq_zero {gadgets : List GadgetRequest}
    (h : ∀ request ∈ gadgets, Unmentioned types source index request) (target : ExplicitCheck) :
    pathCount types gadgets source index target = 0 := by
  have hcount := pathCount_append_of_unmentioned h [] target
  rwa [append_nil] at hcount

theorem mentionsUnfinished_iff {measurement : PresentMeasurement} :
    mentionsUnfinished types source index request measurement = true ↔
      ∃ inputPort connector sourceType, measurement.inputPort = some inputPort ∧
        request.connectors[inputPort]? = some connector ∧ connector.gid = source.gid ∧
          types.gadgetTypes.lookup source.gtype = some sourceType ∧
            virtualIndex types sourceType connector.port measurement.measurementIndex = index := by
  rw [mentionsUnfinished]
  cases measurement.inputPort with
  | none => simp
  | some inputPort =>
    rw [Option.elim_some]
    cases hconnector : request.connectors[inputPort]? with
    | none => simp [hconnector]
    | some connector =>
      cases types.gadgetTypes.lookup source.gtype with
      | none => simp
      | some sourceType => simp [hconnector]

theorem unmentioned_of_forall_ne
    (h : ∀ connector ∈ request.connectors, connector.gid ≠ source.gid) :
    Unmentioned types source index request := by
  intro gadgetType _ check _
  refine countP_eq_zero.mpr fun measurement _ hmention => ?_
  obtain ⟨_, connector, _, -, hconnector, hgid, -⟩ := mentionsUnfinished_iff.mp hmention
  exact h connector (mem_of_getElem? hconnector) hgid

end Unmentioned

section Fitted

variable {K : Type} {types : JitTypes K} {history : List GadgetRequest}

variable {source peer : GadgetRequest} {sourceType peerType : JitGadgetType K}
  {inputPort port index : ℕ}

theorem Fitted.mentionCount_eq (hfitted : Fitted types history) (hsource : source ∈ history)
    (hpeer : peer ∈ history) (hsourceType : types.gadgetTypes.lookup source.gtype = some sourceType)
    (hpeerType : types.gadgetTypes.lookup peer.gtype = some peerType)
    (hconnector : peer.connectors[inputPort]? = some ⟨source.gid, port⟩)
    (hlt : index < virtualWidth types sourceType port) {check : JitCheck}
    (hcheck : check ∈ peerType.finishedChecks ++ peerType.unfinishedChecks) :
    mentionCount types source (virtualIndex types sourceType port index) peer check =
      check.mentions inputPort index := by
  refine countP_congr fun measurement hmem => ?_
  rw [mentionsUnfinished_iff, beq_iff_eq]
  constructor
  · rintro ⟨inputPort', ⟨gid, port'⟩, sourceType', hport, hconnector', rfl, hsourceType', heq⟩
    rw [hsourceType] at hsourceType'
    cases hsourceType'
    obtain ⟨_, measurementIndex⟩ := measurement
    cases hport
    have hlt' := hfitted.mention_lt hsource hpeer hsourceType hpeerType hcheck hmem hconnector'
    obtain ⟨rfl, rfl⟩ := eq_of_virtualIndex_eq hlt' hlt heq
    obtain ⟨-, rfl⟩ := hfitted.unique peer hpeer peer hpeer _ _ _ hconnector hconnector'
    rfl
  · rintro rfl
    exact ⟨inputPort, _, sourceType, rfl, hconnector, rfl, hsourceType, rfl⟩

theorem Fitted.unmentioned_of_ne (hfitted : Fitted types history) (hsource : source ∈ history)
    (hpeer : peer ∈ history) (hsourceType : types.gadgetTypes.lookup source.gtype = some sourceType)
    (hconnector : peer.connectors[inputPort]? = some ⟨source.gid, port⟩)
    (hlt : index < virtualWidth types sourceType port)
    (hrequest : request ∈ history) (hne : request ≠ peer) :
    Unmentioned types source (virtualIndex types sourceType port index) request := by
  intro gadgetType htype check hcheck
  refine countP_eq_zero.mpr fun measurement hmem hmention => ?_
  obtain ⟨inputPort', ⟨gid, port'⟩, sourceType', hport, hconnector', rfl, hsourceType', heq⟩ :=
    mentionsUnfinished_iff.mp hmention
  rw [hsourceType] at hsourceType'
  cases hsourceType'
  obtain ⟨_, measurementIndex⟩ := measurement
  cases hport
  have hlt' := hfitted.mention_lt hsource hrequest hsourceType htype hcheck hmem hconnector'
  obtain ⟨rfl, rfl⟩ := eq_of_virtualIndex_eq hlt' hlt heq
  exact hne (hfitted.unique request hrequest peer hpeer _ _ _ hconnector' hconnector).1

theorem Fitted.pathCount_eq (hfitted : Fitted types history) (hsource : source ∈ history)
    (hpeer : peer ∈ history) (hsourceType : types.gadgetTypes.lookup source.gtype = some sourceType)
    (hpeerType : types.gadgetTypes.lookup peer.gtype = some peerType)
    (hconnector : peer.connectors[inputPort]? = some ⟨source.gid, port⟩)
    (hlt : index < virtualWidth types sourceType port) (target : ExplicitCheck) :
    pathCount types history.reverse source (virtualIndex types sourceType port index) target =
      (if target.cid = peer.gid then
        (peerType.finishedChecks[target.checkIndex]?).elim 0 (·.mentions inputPort index) else 0) +
      (peerType.unfinishedChecks.zipIdx.map fun check => check.1.mentions inputPort index *
        pathCount types history.reverse peer check.2 target).sum := by
  have hmention : ∀ check ∈ peerType.finishedChecks ++ peerType.unfinishedChecks,
      mentionCount types source (virtualIndex types sourceType port index) peer check =
        check.mentions inputPort index := fun check =>
    hfitted.mentionCount_eq hsource hpeer hsourceType hpeerType hconnector hlt
  have hunmentioned : ∀ request ∈ history, request ≠ peer →
      Unmentioned types source (virtualIndex types sourceType port index) request := fun request =>
    hfitted.unmentioned_of_ne hsource hpeer hsourceType hconnector hlt
  obtain ⟨newer, older, rfl⟩ := append_of_mem hpeer
  have hpairwise := pairwise_append.mp hfitted.older
  have hnodup := hfitted.nodup
  rw [map_append, map_cons, nodup_append] at hnodup
  -- The gadget at the port has no connector to itself, and those before it have none either.
  have hbefore : ∀ request ∈ peer :: older, ∀ checkIndex,
      Unmentioned types peer checkIndex request := by
    intro request hrequest checkIndex
    refine unmentioned_of_forall_ne fun connector hmem => ?_
    rcases mem_cons.mp hrequest with rfl | hrequest
    · exact hfitted.other request (by simp) connector hmem
    · exact (pairwise_cons.mp hpairwise.2.1).1 request hrequest connector hmem
  have hafter : ∀ checkIndex, pathCount types (newer ++ peer :: older).reverse peer checkIndex
      target = pathCount types newer.reverse peer checkIndex target := by
    intro checkIndex
    rw [reverse_append, pathCount_append_of_unmentioned fun request hrequest =>
      hbefore request (mem_reverse.mp hrequest) checkIndex]
  simp only [hafter]
  rw [reverse_append, reverse_cons, append_assoc, singleton_append,
    pathCount_append_of_unmentioned, pathCount, hpeerType, Option.elim_some]
  · rw [pathCount_eq_zero, Nat.add_zero]
    · refine congrArg₂ (· + ·) ?_ (congrArg List.sum (map_congr_left fun check hcheck => ?_))
      · split
        · cases hget : peerType.finishedChecks[target.checkIndex]? with
          | none => rfl
          | some check => exact hmention check (mem_append_left _ (mem_of_getElem? hget))
        · rfl
      · have hget := mk_mem_zipIdx_iff_getElem?.mp hcheck
        rw [hmention check.1 (mem_append_right _ (mem_of_getElem? hget))]
    · intro request hrequest
      rw [mem_reverse] at hrequest
      refine hunmentioned request (mem_append_left _ hrequest) ?_
      rintro rfl
      exact hnodup.2.2 _ (mem_map_of_mem hrequest) _ mem_cons_self rfl
  · intro request hrequest
    rw [mem_reverse] at hrequest
    refine hunmentioned request (mem_append_right _ (mem_cons_of_mem _ hrequest)) ?_
    rintro rfl
    exact (nodup_cons.mp hnodup.2.1).1 (mem_map_of_mem hrequest)

end Fitted

section Resolved

variable {K : Type} {types : JitTypes K} {history : List GadgetRequest}

/-- The finished checks of a gadget type mention a virtual check an odd number of times, or not at
all. -/
def JitGadgetType.MentionsOddly (gadgetType : JitGadgetType K) : Prop :=
  ∀ check ∈ gadgetType.finishedChecks, ∀ port index,
    check.mentions port index ≠ 0 → Odd (check.mentions port index)

theorem mem_foldl_insert_iff {gid : ℕ} {indices : List ℕ} {checks : Finset ExplicitCheck}
    {target : ExplicitCheck} :
    target ∈ indices.foldl (fun checks checkIndex => insert ⟨gid, checkIndex⟩ checks) checks ↔
      target ∈ checks ∨ (target.cid = gid ∧ target.checkIndex ∈ indices) := by
  induction indices generalizing checks with
  | nil => simp
  | cons index indices ih =>
    have hself : target = ⟨gid, index⟩ ↔ target.cid = gid ∧ target.checkIndex = index := by
      cases target
      simp
    rw [foldl_cons, ih, Finset.mem_insert, hself, mem_cons]
    tauto

theorem mem_finishedReferences_iff {peerType : JitGadgetType K} (hoddly : peerType.MentionsOddly)
    (gid inputPort index : ℕ) (target : ExplicitCheck) :
    target ∈ finishedReferences peerType gid inputPort index ↔ Odd (if target.cid = gid then
        (peerType.finishedChecks[target.checkIndex]?).elim 0 (·.mentions inputPort index)
      else 0) := by
  rw [finishedReferences, mem_foldl_insert_iff, or_iff_right (Finset.notMem_empty _),
    mem_referencesTo]
  split
  · rename_i hgid
    rw [and_iff_right hgid]
    cases hget : peerType.finishedChecks[target.checkIndex]? with
    | none => simp
    | some check =>
      rw [Option.elim_some]
      constructor
      · rintro ⟨_, heq, hne⟩
        cases heq
        exact hoddly check (mem_of_getElem? hget) inputPort index hne
      · exact fun hodd => ⟨check, rfl, fun hzero => by
          rw [hzero] at hodd
          exact Nat.not_odd_zero hodd⟩
  · rename_i hgid
    exact iff_of_false (fun h => hgid h.1) Nat.not_odd_zero

theorem Resolved.mem_iff (hfitted : Fitted types history)
    (hoddly : ∀ request ∈ history, ∀ gadgetType,
      types.gadgetTypes.lookup request.gtype = some gadgetType → gadgetType.MentionsOddly)
    {source : GadgetRequest} {index : ℕ} {checks : Finset ExplicitCheck}
    (h : Resolved types history source index checks) (target : ExplicitCheck) :
    target ∈ checks ↔ Odd (pathCount types history.reverse source index target) := by
  induction h with
  | @intro source peer sourceType peerType inputPort port index resolved hsource hpeer hsourceType
      hpeerType hconnector hlt hunfinished ih =>
      rw [hfitted.pathCount_eq hsource hpeer hsourceType hpeerType hconnector hlt,
        ← sum_map_referencesTo fun checkIndex =>
          pathCount types history.reverse peer checkIndex target]
      exact mem_foldl_symmDiff_iff ih
        (mem_finishedReferences_iff (hoddly peer hpeer peerType hpeerType) peer.gid inputPort index
          target)

end Resolved

end QdkEc
