import QdkEc.DeqRuntime.LossHandler

/-!
# Probabilities of a shot

This module shows what assigning probabilities to the edges of a graph does: the last
assignment of an edge counts.  The assignments of a shot name edges of the graph, those
of its modifiers name every edge once, and the assignments of its losses replace them.
-/

namespace QdkEc

open List AList LossHandler

section Overrides

variable {K : Type}

/-- The probabilities that assignments leave. -/
def overridesOf (reweights : List (ℕ × K)) : GidMap K :=
  reweights.foldl (fun overrides assignment =>
    overrides.insert assignment.1 assignment.2) ∅

@[simp]
theorem overridesOf_nil : overridesOf ([] : List (ℕ × K)) = ∅ :=
  rfl

theorem lookup_overridesOf_concat (reweights : List (ℕ × K)) (assignment : ℕ × K) (edge : ℕ) :
    (overridesOf (reweights ++ [assignment])).lookup edge =
      if edge = assignment.1 then some assignment.2 else (overridesOf reweights).lookup edge := by
  rw [overridesOf, foldl_append]
  split
  · rename_i hedge
    subst hedge
    exact lookup_insert _
  · rename_i hedge
    exact lookup_insert_ne hedge

theorem mem_of_lookup_overridesOf {reweights : List (ℕ × K)} {edge : ℕ} {p : K}
    (hlookup : (overridesOf reweights).lookup edge = some p) : (edge, p) ∈ reweights := by
  induction reweights using List.reverseRecOn with
  | nil => simp at hlookup
  | append_singleton reweights assignment ih =>
    rw [lookup_overridesOf_concat] at hlookup
    split at hlookup
    · rename_i hedge
      subst hedge
      obtain rfl := Option.some_inj.mp hlookup
      simp
    · exact mem_append_left _ (ih hlookup)

theorem exists_lookup_overridesOf {reweights : List (ℕ × K)} {edge : ℕ}
    (hmem : edge ∈ reweights.map Prod.fst) : ∃ p, (overridesOf reweights).lookup edge = some p := by
  induction reweights using List.reverseRecOn with
  | nil => simp at hmem
  | append_singleton reweights assignment ih =>
    rw [lookup_overridesOf_concat]
    split
    · exact ⟨_, rfl⟩
    · rename_i hedge
      rw [map_append, mem_append] at hmem
      exact ih (hmem.resolve_right (by simpa using hedge))

theorem lookup_overridesOf_filter (keep : ℕ → Bool) (reweights : List (ℕ × K)) (edge : ℕ) :
    (overridesOf (reweights.filter fun assignment => keep assignment.1)).lookup edge =
      if keep edge then (overridesOf reweights).lookup edge else none := by
  induction reweights using List.reverseRecOn with
  | nil => simp
  | append_singleton reweights assignment ih =>
    rw [filter_append, filter_singleton, lookup_overridesOf_concat]
    by_cases hassignment : keep assignment.1
    · rw [hassignment, cond_true, lookup_overridesOf_concat, ih]
      by_cases hedge : edge = assignment.1
      · rw [if_pos hedge, if_pos hedge, if_pos (hedge ▸ hassignment)]
      · rw [if_neg hedge, if_neg hedge]
    · rw [Bool.eq_false_of_not_eq_true hassignment, cond_false, append_nil, ih]
      by_cases hedge : edge = assignment.1
      · rw [if_neg (hedge ▸ hassignment), if_neg (hedge ▸ hassignment)]
      · rw [if_neg hedge]

/-- Hyperedges with the probabilities that are left. -/
def overridden (overrides : ℕ → Option K) (hyperedges : List (Hyperedge K)) : List (Hyperedge K) :=
  hyperedges.mapIdx fun edge hyperedge => { hyperedge with
    probability := (overrides edge).getD hyperedge.probability }

@[simp]
theorem getElem?_overridden (overrides : ℕ → Option K) (hyperedges : List (Hyperedge K))
    (edge : ℕ) : (overridden overrides hyperedges)[edge]? =
      hyperedges[edge]?.map fun hyperedge => { hyperedge with
        probability := (overrides edge).getD hyperedge.probability } := by
  simp [overridden]

theorem overridden_overridden (later earlier : ℕ → Option K) (hyperedges : List (Hyperedge K)) :
    overridden later (overridden earlier hyperedges) =
      overridden (fun edge => (later edge).or (earlier edge)) hyperedges := by
  refine ext_getElem? fun edge => ?_
  rw [getElem?_overridden, getElem?_overridden, getElem?_overridden, Option.map_map]
  refine congrArg (fun change => Option.map change hyperedges[edge]?) (funext fun hyperedge => ?_)
  cases hlater : later edge <;> simp

theorem foldl_setProbability (hyperedges : List (Hyperedge K)) (reweights : List (ℕ × K)) :
    reweights.foldl setProbability hyperedges =
      overridden (fun edge => (overridesOf reweights).lookup edge) hyperedges := by
  induction reweights using List.reverseRecOn with
  | nil =>
    refine ext_getElem? fun edge => ?_
    simp
  | append_singleton reweights assignment ih =>
    rw [foldl_append, ih]
    refine ext_getElem? fun edge => ?_
    rw [foldl_cons, foldl_nil, setProbability, getElem?_modify,
      getElem?_overridden, getElem?_overridden, lookup_overridesOf_concat,
      Option.map_eq_map, Option.map_map]
    by_cases hedge : assignment.1 = edge
    · simp [hedge, Function.comp_def]
    · simp [hedge, Ne.symm hedge, Function.comp_def]

/-- All assignments name one of the first edges. -/
def EdgesBelow (bound : ℕ) (reweights : List (ℕ × K)) : Prop :=
  ∀ assignment ∈ reweights, assignment.1 < bound

theorem foldlM_reweight {reweights : List (ℕ × K)} {hyperedges : List (Hyperedge K)}
    (hbelow : EdgesBelow hyperedges.length reweights) : reweights.foldlM reweight hyperedges =
      some (reweights.foldl setProbability hyperedges) := by
  induction reweights generalizing hyperedges with
  | nil => rfl
  | cons assignment reweights ih =>
    have hedge : assignment.1 < hyperedges.length := hbelow _ mem_cons_self
    have hstep : reweight hyperedges assignment =
        some (setProbability hyperedges assignment) := by
      rw [reweight, getElem?_eq_getElem hedge, setProbability,
        modify_eq_set_getElem?, getElem?_eq_getElem hedge]
      rfl
    rw [foldlM_cons, hstep, foldl_cons]
    refine ih fun other hother => ?_
    rw [setProbability, length_modify]
    exact hbelow other (mem_cons_of_mem _ hother)

theorem applyReweights_eq {reweights : List (ℕ × K)} {hypergraph : DecodingHypergraph K}
    (hbelow : EdgesBelow hypergraph.hyperedges.length reweights) :
    applyReweights hypergraph reweights = some { hypergraph with
      hyperedges := overridden (fun edge => (overridesOf reweights).lookup edge)
        hypergraph.hyperedges } := by
  rw [applyReweights, foldlM_reweight hbelow, foldl_setProbability]
  rfl

end Overrides

namespace ErrorEdgeLookup

/-- All edges are among the first. -/
def Below (bound : ℕ) (lookup : ErrorEdgeLookup) : Prop :=
  ∀ eid edges, lookup.edgesByEid.lookup eid = some edges → ∀ e, some e ∈ edges → e < bound

theorem below_record {bound : ℕ} {lookup : ErrorEdgeLookup} (hbelow : lookup.Below bound)
    {reference : ErrorIndex × ℕ} (hreference : reference.2 < bound) :
    (lookup.record reference).Below bound := by
  intro eid edges hedges e he
  by_cases heid : eid = reference.1.eid
  · subst heid
    rw [record, lookup_insert] at hedges
    obtain rfl := Option.some_inj.mp hedges
    rcases mem_or_eq_of_mem_set he with hold | hnew
    · rcases mem_append.mp hold with hold | hmissing
      · cases hlookup : lookup.edgesByEid.lookup reference.1.eid with
        | none =>
          rw [hlookup] at hold
          simp at hold
        | some before =>
          rw [hlookup] at hold
          exact hbelow _ _ hlookup e hold
      · exact absurd (eq_of_mem_replicate hmissing) (Option.some_ne_none e)
    · rwa [Option.some_inj.mp hnew]
  · rw [record, lookup_insert_ne heid] at hedges
    exact hbelow eid edges hedges e he

theorem below_new (errorReference : List ErrorIndex) :
    (new errorReference).Below errorReference.length := by
  refine List.foldlRecOn _ record (motive := Below errorReference.length)
    (fun eid edges hedges => ?_) fun lookup hbelow reference hreference =>
      below_record hbelow (snd_lt_of_mem_zipIdx hreference)
  simp at hedges

variable {K : Type}

theorem below_override {bound : ℕ} {edges : List (Option ℕ)}
    (hedges : ∀ e, some e ∈ edges → e < bound) {overrides : GidMap K}
    (hbelow : ∀ e ∈ overrides, e < bound) (assignment : ℕ × K) :
    ∀ e ∈ override edges overrides assignment, e < bound := by
  intro e he
  rw [override] at he
  cases hedge : edge edges assignment.1 with
  | none =>
    rw [hedge] at he
    exact hbelow e he
  | some assigned =>
    rw [hedge, Option.elim_some, mem_insert] at he
    rcases he with rfl | he
    · exact hedges e (mem_of_getElem? (Option.join_eq_some_iff.mp hedge))
    · exact hbelow e he

theorem edgesBelow_project {bound : ℕ} {lookup : ErrorEdgeLookup} (hbelow : lookup.Below bound)
    (modifiers : List (ℕ × ProbabilityModifier K)) :
    EdgesBelow bound (lookup.project modifiers) := by
  have hoverrides : ∀ e ∈ modifiers.foldl (fun overrides modifier =>
      (lookup.edgesByEid.lookup modifier.1).elim overrides fun edges =>
        (assignments modifier.2).foldl (override edges) overrides) (∅ : GidMap K), e < bound := by
    refine List.foldlRecOn (motive := fun overrides : GidMap K => ∀ e ∈ overrides, e < bound)
      modifiers _ (fun e he => absurd he (notMem_empty e)) fun overrides hkeys modifier _ => ?_
    cases hlookup : lookup.edgesByEid.lookup modifier.1 with
    | none => exact hkeys
    | some edges =>
      exact List.foldlRecOn (motive := fun overrides : GidMap K => ∀ e ∈ overrides, e < bound)
        _ _ hkeys fun overrides hkeys assignment _ =>
          below_override (hbelow _ _ hlookup) hkeys assignment
  intro assignment hassignment
  obtain ⟨entry, hentry, rfl⟩ :=
    mem_map.mp ((perm_insertionSort _ _).mem_iff.mp hassignment)
  exact hoverrides entry.1 (mem_keys.mp (mem_map_of_mem hentry))

theorem nodup_project (lookup : ErrorEdgeLookup) (modifiers : List (ℕ × ProbabilityModifier K)) :
    ((lookup.project modifiers).map Prod.fst).Nodup := by
  rw [project, ((perm_insertionSort _ _).map Prod.fst).nodup_iff, map_map]
  exact keys_nodup _

end ErrorEdgeLookup

section Losses

variable {K W : Type}

theorem lt_of_mem_mapEdges {errorReference : List ErrorIndex} {localEid : Option ℕ}
    {generators : List ℕ} {edge : ℕ}
    (hedge : edge ∈ mapEdges (edgeOfError errorReference) localEid generators) :
    edge < errorReference.length := by
  have hbound : ∀ error e, (edgeOfError errorReference).lookup error = some e →
      e < errorReference.length := by
    refine List.foldlRecOn (motive := fun edges : AList fun _ : ℕ × ℕ => ℕ =>
      ∀ error e, edges.lookup error = some e → e < errorReference.length) _ _
      (fun error e he => by simp at he) fun edges hedges reference hreference error e he => ?_
    by_cases herror : error = (reference.1.eid, reference.1.errorIndex)
    · subst herror
      rw [lookup_insert] at he
      obtain rfl := Option.some_inj.mp he
      exact snd_lt_of_mem_zipIdx hreference
    · rw [lookup_insert_ne herror] at he
      exact hedges error e he
  cases localEid with
  | none => simp [mapEdges] at hedge
  | some eid =>
    have hin := (perm_insertionSort _ _).mem_iff.mp hedge
    obtain ⟨generator, -, hlookup⟩ := mem_filterMap.mp (mem_dedup.mp hin)
    exact hbound _ _ hlookup

theorem lt_of_mem_buildLossInfo {lossSites : List (RawLossSite K)}
    {errorReference : List ErrorIndex} {site : LossSite K}
    (hsite : site ∈ buildLossInfo lossSites errorReference) :
    (∀ edge ∈ site.sourceEdges, edge < errorReference.length) ∧
      ∀ edge ∈ site.continuationEdges, edge < errorReference.length := by
  obtain ⟨raw, -, rfl⟩ := mem_map.mp hsite
  exact ⟨fun edge => lt_of_mem_mapEdges, fun edge => lt_of_mem_mapEdges⟩

theorem mem_activate [Ring K] {activations : List ℕ × GidMap K} {edge other : ℕ} {probability : K}
    (hother : other ∈ (activate activations edge probability).1) :
    other ∈ activations.1 ∨ other = edge := by
  rw [activate] at hother
  cases hlookup : activations.2.lookup edge with
  | none =>
    rw [hlookup] at hother
    simpa using hother
  | some before =>
    rw [hlookup] at hother
    exact .inl hother

theorem lt_of_mem_activateSite [Ring K] {bound : ℕ} {activations : List ℕ × GidMap K}
    (hbelow : ∀ edge ∈ activations.1, edge < bound) {site : LossSite K × K}
    (hsource : ∀ edge ∈ site.1.sourceEdges, edge < bound)
    (hcontinuation : ∀ edge ∈ site.1.continuationEdges, edge < bound) :
    ∀ edge ∈ (activateSite activations site).1, edge < bound := by
  refine List.foldlRecOn (motive := fun activations : List ℕ × GidMap K =>
    ∀ edge ∈ activations.1, edge < bound) _ _ ?_ fun before hbefore edge hedge other hother => ?_
  · refine List.foldlRecOn (motive := fun activations : List ℕ × GidMap K =>
      ∀ edge ∈ activations.1, edge < bound) _ _ hbelow
      fun before hbefore edge hedge other hother => ?_
    rcases mem_activate hother with hold | rfl
    · exact hbefore other hold
    · exact hsource _ hedge
  · rcases mem_activate hother with hold | rfl
    · exact hbefore other hold
    · exact hcontinuation _ (mem_of_mem_filter hedge)

theorem edgesBelow_lossReweights [Field K] [DecidableEq K] (scale : WeightScale K W)
    (lossSites : List (RawLossSite K)) (errorReference : List ErrorIndex)
    (hypergraph : DecodingHypergraph K) (policy : EnvelopeReweightPolicy W) :
    EdgesBelow errorReference.length
      (lossReweights scale (buildLossInfo lossSites errorReference) hypergraph policy) := by
  intro assignment hassignment
  obtain ⟨edge, hedge, rfl⟩ := mem_map.mp hassignment
  refine List.foldlRecOn (motive := fun activations : List ℕ × GidMap K =>
    ∀ edge ∈ activations.1, edge < errorReference.length) _ _ (fun edge hedge => by simp at hedge)
    (fun before hbefore site hsite => ?_) edge hedge
  have hbounds := lt_of_mem_buildLossInfo (of_mem_zip hsite).1
  exact lt_of_mem_activateSite hbefore hbounds.1 hbounds.2

/-- The positions of the assignments, which name every edge once. -/
def Positioned (combined : List (ℕ × K) × GidMap ℕ) : Prop :=
  ∀ edge position, combined.2.lookup edge = some position ↔
    (combined.1[position]?).map Prod.fst = some edge

theorem Positioned.lookup_overridesOf {combined : List (ℕ × K) × GidMap ℕ}
    (hpositioned : Positioned combined) (edge : ℕ) : (overridesOf combined.1).lookup edge =
      (combined.2.lookup edge).bind fun position =>
        (combined.1[position]?).map Prod.snd := by
  cases hlookup : combined.2.lookup edge with
  | none =>
    refine Option.eq_none_iff_forall_ne_some.mpr fun p hp => ?_
    obtain ⟨position, hposition⟩ := mem_iff_getElem?.mp (mem_of_lookup_overridesOf hp)
    rw [(hpositioned edge position).mpr (by rw [hposition]; rfl)] at hlookup
    cases hlookup
  | some position =>
    obtain ⟨assignment, hassignment, rfl⟩ :=
      Option.map_eq_some_iff.mp ((hpositioned edge position).mp hlookup)
    obtain ⟨p, hp⟩ := exists_lookup_overridesOf
      (mem_map_of_mem (f := Prod.fst) (mem_of_getElem? hassignment))
    obtain ⟨other, hother⟩ := mem_iff_getElem?.mp (mem_of_lookup_overridesOf hp)
    have hsame : combined.2.lookup assignment.1 = some other :=
      (hpositioned _ other).mpr (by rw [hother]; rfl)
    obtain rfl := Option.some_inj.mp (hlookup.symm.trans hsame)
    rw [hp, Option.bind_some, hother]
    rfl

/-- A new edge stands last. -/
theorem Positioned.concat {combined : List (ℕ × K) × GidMap ℕ} (hpositioned : Positioned combined)
    {assignment : ℕ × K} (hfresh : combined.2.lookup assignment.1 = none) :
    Positioned (combined.1 ++ [assignment], combined.2.insert assignment.1 combined.1.length) := by
  intro edge position
  have hother : (combined.1[position]?).map Prod.fst ≠ some assignment.1 := by
    intro hkey
    rw [(hpositioned _ _).mpr hkey] at hfresh
    cases hfresh
  rcases Nat.lt_trichotomy position combined.1.length with hlt | rfl | hgt
  · rw [getElem?_append_left hlt]
    by_cases hedge : edge = assignment.1
    · subst hedge
      rw [lookup_insert]
      exact
        ⟨fun heq => absurd (Option.some_inj.mp heq) (Nat.ne_of_gt hlt), fun h => absurd h hother⟩
    · rw [lookup_insert_ne hedge]
      exact hpositioned edge position
  · rw [getElem?_concat_length]
    by_cases hedge : edge = assignment.1
    · subst hedge
      rw [lookup_insert]
      exact ⟨fun _ => rfl, fun _ => rfl⟩
    · rw [lookup_insert_ne hedge, hpositioned, getElem?_eq_none le_rfl]
      exact ⟨nofun, fun h => absurd (Option.some_inj.mp h).symm hedge⟩
  · rw [getElem?_eq_none (by simpa using hgt)]
    by_cases hedge : edge = assignment.1
    · subst hedge
      rw [lookup_insert]
      exact ⟨fun h => absurd (Option.some_inj.mp h) (Nat.ne_of_lt hgt), nofun⟩
    · rw [lookup_insert_ne hedge, hpositioned, getElem?_eq_none hgt.le]

theorem Positioned.replaceReweight {combined : List (ℕ × K) × GidMap ℕ}
    (hpositioned : Positioned combined) (assignment : ℕ × K) :
    Positioned (LossHandler.replaceReweight combined assignment) ∧
      ∀ edge, (overridesOf (LossHandler.replaceReweight combined assignment).1).lookup edge =
        if edge = assignment.1 then some assignment.2
        else (overridesOf combined.1).lookup edge := by
  rw [LossHandler.replaceReweight]
  cases hlookup : combined.2.lookup assignment.1 with
  | none => exact ⟨hpositioned.concat hlookup, lookup_overridesOf_concat _ _⟩
  | some position =>
    obtain ⟨before, hbefore, hkey⟩ :=
      Option.map_eq_some_iff.mp ((hpositioned _ position).mp hlookup)
    have hlt : position < combined.1.length := (List.getElem?_eq_some_iff.mp hbefore).1
    have hset : Positioned (combined.1.set position (assignment.1, assignment.2),
        combined.2) := by
      intro edge other
      rw [hpositioned]
      by_cases hother : position = other
      · subst hother
        rw [getElem?_set_self hlt, hbefore, Option.map_some, Option.map_some, hkey]
      · rw [getElem?_set_ne hother]
    refine ⟨hset, fun edge => ?_⟩
    refine (hset.lookup_overridesOf edge).trans ?_
    split
    · rename_i hedge
      rw [hedge, hlookup, Option.bind_some, getElem?_set_self hlt]
      rfl
    · rename_i hedge
      rw [hpositioned.lookup_overridesOf]
      cases hother : combined.2.lookup edge with
      | none => rfl
      | some other =>
        have hne : position ≠ other := by
          rintro rfl
          have hsame := (hpositioned edge position).mp hother
          rw [hbefore, Option.map_some, hkey] at hsame
          exact hedge (Option.some_inj.mp hsame).symm
        rw [Option.bind_some, Option.bind_some, getElem?_set_ne hne]

theorem positioned_of_nodup {reweights : List (ℕ × K)} (hnodup : (reweights.map Prod.fst).Nodup) :
    Positioned (reweights, reweights.zipIdx.foldl (fun positions entry =>
      positions.insert entry.1.1 entry.2) (∅ : GidMap ℕ)) := by
  induction reweights using List.reverseRecOn with
  | nil =>
    intro edge position
    simp
  | append_singleton reweights assignment ih =>
    rw [map_append, nodup_append] at hnodup
    have hold := ih hnodup.1
    rw [zipIdx_append, foldl_append, Nat.zero_add]
    refine hold.concat (Option.eq_none_iff_forall_ne_some.mpr fun position hlookup => ?_)
    obtain ⟨before, hbefore, hkey⟩ := Option.map_eq_some_iff.mp ((hold _ _).mp hlookup)
    exact hnodup.2.2 _ (mem_map_of_mem (mem_of_getElem? hbefore)) _
      mem_cons_self hkey

theorem lookup_combineReweights {probabilityReweights : List (ℕ × K)}
    (hnodup : (probabilityReweights.map Prod.fst).Nodup) (lossReweights : List (ℕ × K)) (edge : ℕ) :
    (overridesOf (combineReweights probabilityReweights lossReweights)).lookup edge =
      ((overridesOf lossReweights).lookup edge).or
        ((overridesOf probabilityReweights).lookup edge) := by
  have hrun : Positioned (lossReweights.foldl LossHandler.replaceReweight
        (probabilityReweights, probabilityReweights.zipIdx.foldl (fun positions entry =>
          positions.insert entry.1.1 entry.2) (∅ : GidMap ℕ))) ∧
      ∀ edge, (overridesOf (combineReweights probabilityReweights
          lossReweights)).lookup edge =
        ((overridesOf lossReweights).lookup edge).or
          ((overridesOf probabilityReweights).lookup edge) := by
    induction lossReweights using List.reverseRecOn with
    | nil => exact ⟨positioned_of_nodup hnodup, fun edge => rfl⟩
    | append_singleton lossReweights assignment ih =>
      rw [foldl_append]
      obtain ⟨hpositioned, hlookup⟩ := ih.1.replaceReweight assignment
      refine ⟨hpositioned, fun edge => ?_⟩
      rw [combineReweights, foldl_append]
      refine (hlookup edge).trans ?_
      rw [lookup_overridesOf_concat]
      split
      · rfl
      · exact ih.2 edge
  exact hrun.2 edge

theorem edgesBelow_combineReweights {bound : ℕ} {probabilityReweights lossReweights : List (ℕ × K)}
    (hnodup : (probabilityReweights.map Prod.fst).Nodup)
    (hprobability : EdgesBelow bound probabilityReweights)
    (hloss : EdgesBelow bound lossReweights) :
    EdgesBelow bound (combineReweights probabilityReweights lossReweights) := by
  intro assignment hassignment
  obtain ⟨p, hp⟩ := exists_lookup_overridesOf (mem_map_of_mem (f := Prod.fst) hassignment)
  rw [lookup_combineReweights hnodup] at hp
  rcases Option.or_eq_some_iff.mp hp with hmem | ⟨-, hmem⟩
  · exact hloss (assignment.1, p) (mem_of_lookup_overridesOf hmem)
  · exact hprobability (assignment.1, p) (mem_of_lookup_overridesOf hmem)

end Losses

end QdkEc
