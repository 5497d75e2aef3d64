import QdkEc.DeqRuntime.EdgeMerging
import QdkEc.DeqRuntime.EdgeOverrides
import QdkEc.Lib.OptionTraversal
import Mathlib.Data.List.Destutter

/-!
# Shots on loaded graphs

This module shows that a shot on a loaded graph is the shot on a graph that is made for
it.  Reweighting does not change the groups of a merge, so only the decoder edges of
reweighted original edges can change, and their probabilities and errors are computed
from all their original edges again.
-/

namespace QdkEc

open Grouping List Merging LossHandler

theorem mem_destutter'_ne {value first : ℕ} {l : List ℕ} :
    value ∈ l.destutter' (· ≠ ·) first ↔ value = first ∨ value ∈ l := by
  induction l generalizing first with
  | nil => simp
  | cons next l ih =>
    by_cases hnext : first = next
    · subst hnext
      rw [destutter'_cons_neg _ (by simp), ih]
      simp
    · rw [destutter'_cons_pos _ hnext, mem_cons, ih, mem_cons]

theorem mem_destutter_ne {value : ℕ} {l : List ℕ} : value ∈ l.destutter (· ≠ ·) ↔ value ∈ l := by
  cases l with
  | nil => simp
  | cons first l => rw [destutter_cons', mem_destutter'_ne, mem_cons]

namespace Merging

variable {K : Type}

/-- An original edge with the probability that is left. -/
def overrideEdge (overrides : ℕ → Option K) (edge : OriginalEdge K) : OriginalEdge K :=
  { edge with hyperedge := { edge.hyperedge with
      probability := (overrides edge.position).getD edge.hyperedge.probability } }

@[simp]
theorem keyOf_overrideEdge (mergeClass : ErrorIndex → ℕ) (overrides : ℕ → Option K)
    (edge : OriginalEdge K) :
    keyOf mergeClass (overrideEdge overrides edge) = keyOf mergeClass edge :=
  rfl

variable {edge : OriginalEdge K} {overrides : ℕ → Option K} {errors : List ErrorIndex}
  {hypergraph : DecodingHypergraph K} {logicalFlips : List (List ℕ)} {edges : List (OriginalEdge K)}
  {mergeClass : ErrorIndex → ℕ} {decoderEdge : ℕ} {merging base shot : Merging K}

theorem overrideEdge_eq_self
    (hnone : overrides edge.position = none) : overrideEdge overrides edge = edge := by
  rw [overrideEdge, hnone]
  rfl

theorem getElem?_originalEdges (hypergraph : DecodingHypergraph K) (errors : List ErrorIndex)
    (logicalFlips : List (List ℕ)) (position : ℕ) :
    (originalEdges hypergraph errors logicalFlips)[position]? =
      (((hypergraph.hyperedges.zip errors).zip logicalFlips)[position]?).map fun entry =>
        ⟨position, entry.1.1, entry.1.2, entry.2⟩ := by
  rw [originalEdges, getElem?_map, getElem?_zipIdx, Option.map_map, Nat.zero_add]
  rfl

theorem of_mem_originalEdges
    (hedge : edge ∈ originalEdges hypergraph errors logicalFlips) :
    (originalEdges hypergraph errors logicalFlips)[edge.position]? = some edge ∧
      hypergraph.hyperedges[edge.position]? = some edge.hyperedge ∧
      errors[edge.position]? = some edge.error := by
  obtain ⟨position, hposition⟩ := mem_iff_getElem?.mp hedge
  have hentry := hposition
  rw [getElem?_originalEdges] at hentry
  obtain ⟨entry, hzip, rfl⟩ := Option.map_eq_some_iff.mp hentry
  obtain ⟨hleft, -⟩ := getElem?_zip_eq_some.mp hzip
  exact ⟨hposition, getElem?_zip_eq_some.mp hleft⟩

theorem length_originalEdges (herrors : hypergraph.hyperedges.length = errors.length)
    (hflips : hypergraph.hyperedges.length = logicalFlips.length) :
    (originalEdges hypergraph errors logicalFlips).length = hypergraph.hyperedges.length := by
  simp [originalEdges, ← herrors, ← hflips]

theorem originalEdges_overridden (overrides : ℕ → Option K) (hypergraph : DecodingHypergraph K)
    (errors : List ErrorIndex) (logicalFlips : List (List ℕ)) : originalEdges { hypergraph with
        hyperedges := overridden overrides hypergraph.hyperedges } errors logicalFlips =
      (originalEdges hypergraph errors logicalFlips).map (overrideEdge overrides) := by
  refine ext_getElem? fun position => ?_
  rw [getElem?_originalEdges, getElem?_map, getElem?_originalEdges, Option.map_map]
  cases hhyperedge : hypergraph.hyperedges[position]? with
  | none => simp [List.zip, getElem?_zipWith, hhyperedge]
  | some hyperedge =>
    cases herror : errors[position]? with
    | none => simp [List.zip, getElem?_zipWith, hhyperedge, herror]
    | some error =>
      cases hflips : logicalFlips[position]? with
      | none => simp [List.zip, getElem?_zipWith, hhyperedge, herror, hflips]
      | some flips =>
        simp [List.zip, getElem?_zipWith, hhyperedge, herror, hflips, overrideEdge]

variable [Field K] [LinearOrder K]

theorem combined_map_eq_self {key : MergeKey}
    (hnone : ∀ edge ∈ members (keyOf mergeClass) edges key, overrides edge.position = none) :
    combined mergeClass (edges.map (overrideEdge overrides)) key =
      combined mergeClass edges key := by
  rw [combined, members_map _ (keyOf_overrideEdge mergeClass overrides), combined]
  congr 2
  calc (members (keyOf mergeClass) edges key).map (overrideEdge overrides)
      = (members (keyOf mergeClass) edges key).map id :=
        map_congr_left fun edge hedge => overrideEdge_eq_self (hnone edge hedge)
    _ = members (keyOf mergeClass) edges key := map_id _

theorem Groups.exists_representative (hgroups : Groups mergeClass edges merging)
    {key : MergeKey} (hkey : (firstKeys (keyOf mergeClass) edges)[decoderEdge]? = some key) :
    ∃ best ∈ edges, (combined mergeClass edges key).2 = some (best, best.hyperedge.probability) ∧
        merging.representatives[decoderEdge]? = some best.error := by
  obtain ⟨best, hbest, helected⟩ :=
    exists_combined_elected mergeClass (mem_of_getElem? hkey)
  have hget := congrArg (fun l => l[decoderEdge]?) hgroups.representatives
  simp only [getElem?_map, hkey, helected, Option.map_some] at hget
  obtain ⟨error, herror, heq⟩ := Option.map_eq_some_iff.mp hget
  exact ⟨best, mem_of_mem_filter hbest, helected, herror.trans heq⟩

theorem Groups.getElem?_hyperedges (hgroups : Groups mergeClass edges merging) (decoderEdge : ℕ) :
    merging.hyperedges[decoderEdge]? =
      ((firstKeys (keyOf mergeClass) edges)[decoderEdge]?).map fun key =>
        ⟨key.1, (combined mergeClass edges key).1, key.2.2.1⟩ := by
  rw [hgroups.hyperedges, getElem?_map]

theorem projectEdge_eq (overrides : GidMap K)
    (hbase : Groups mergeClass (originalEdges hypergraph errors logicalFlips) base)
    (hshot : Groups mergeClass ((originalEdges hypergraph errors logicalFlips).map
      (overrideEdge fun edge => overrides.lookup edge)) shot) (projection : DecodeProjection K)
    (hgraph : projection.baseHypergraph = hypergraph) (herrors : projection.baseErrors = errors)
    (hdecoder : projection.decoderErrors = base.representatives)
    {hyperedge : Hyperedge K} (hhyperedge : shot.hyperedges[decoderEdge]? = some hyperedge) :
    ∃ baseError shotError, base.representatives[decoderEdge]? = some baseError ∧
        shot.representatives[decoderEdge]? = some shotError ∧
        projectEdge projection base.originalEdgesOfDecoder overrides decoderEdge =
          some ((decoderEdge, hyperedge.probability),
            if baseError ≠ shotError then some (decoderEdge, shotError) else none) := by
  subst hgraph herrors
  rw [hshot.getElem?_hyperedges] at hhyperedge
  obtain ⟨key, hshotKey, rfl⟩ := Option.map_eq_some_iff.mp hhyperedge
  have hkey := hshotKey
  rw [firstKeys_map _ (keyOf_overrideEdge mergeClass _)] at hkey
  obtain ⟨baseBest, -, -, hbaseError⟩ := hbase.exists_representative hkey
  obtain ⟨shotBest, hshotBest, helected, hshotError⟩ := hshot.exists_representative hshotKey
  have horiginals : base.originalEdgesOfDecoder[decoderEdge]? =
      some ((members (keyOf mergeClass) (originalEdges projection.baseHypergraph
        projection.baseErrors logicalFlips) key).map OriginalEdge.position) := by
    rw [hbase.originalEdgesOfDecoder, getElem?_map, hkey]
    rfl
  have hprobabilities : ((members (keyOf mergeClass) (originalEdges projection.baseHypergraph
        projection.baseErrors logicalFlips) key).map OriginalEdge.position).mapM
      (fun original => do
        let hyperedge ← projection.baseHypergraph.hyperedges[original]?
        some (original, (overrides.lookup original).getD hyperedge.probability)) =
      some ((((members (keyOf mergeClass) ((originalEdges projection.baseHypergraph
          projection.baseErrors logicalFlips).map
            (overrideEdge fun edge => overrides.lookup edge)) key).map fun edge =>
              (edge, edge.hyperedge.probability)).map fun entry =>
                (entry.1.position, entry.2))) := by
    rw [mapM_map, members_map _ (keyOf_overrideEdge mergeClass _), map_map, map_map]
    refine mapM_eq_some fun edge hedge => ?_
    obtain ⟨-, hhyperedge, -⟩ := of_mem_originalEdges (mem_of_mem_filter hedge)
    rw [Function.comp_apply, hhyperedge]
    rfl
  have hshotPosition : projection.baseErrors[shotBest.position]? = some shotBest.error := by
    obtain ⟨edge, hedge, rfl⟩ := mem_map.mp hshotBest
    exact (of_mem_originalEdges hedge).2.2
  refine ⟨baseBest.error, shotBest.error, hbaseError, hshotError, ?_⟩
  rw [projectEdge, horiginals, Option.bind_eq_bind, Option.bind_some, hprobabilities,
    Option.bind_eq_bind, Option.bind_some, combine_map, ← combined, helected, hdecoder,
    hbaseError]
  simp only [Option.map_some, Option.bind_eq_bind, Option.bind_some, hshotPosition]

theorem Groups.getElem?_decoderEdgeOfOriginal
    (hgroups : Groups mergeClass edges merging) {position : ℕ}
    (hedge : edges[position]? = some edge) : merging.decoderEdgeOfOriginal[position]? =
      some (groupIndex (keyOf mergeClass) edges (keyOf mergeClass edge)) := by
  rw [hgroups.decoderEdgeOfOriginal, getElem?_map, hedge]
  rfl

theorem eq_base_of_not_translated (overrides : ℕ → Option K)
    (hbase : Groups mergeClass (originalEdges hypergraph errors logicalFlips) base)
    (hshot : Groups mergeClass ((originalEdges hypergraph errors logicalFlips).map
      (overrideEdge overrides)) shot)
    (huntouched : ∀ edge p, overrides edge = some p →
      base.decoderEdgeOfOriginal[edge]? ≠ some decoderEdge) :
    shot.hyperedges[decoderEdge]? = base.hyperedges[decoderEdge]? ∧
      shot.representatives[decoderEdge]? = base.representatives[decoderEdge]? := by
  have hkeys := firstKeys_map _ (keyOf_overrideEdge mergeClass overrides)
    (originalEdges hypergraph errors logicalFlips)
  rw [hshot.getElem?_hyperedges, hbase.getElem?_hyperedges, hkeys]
  cases hkey : (firstKeys (keyOf mergeClass)
      (originalEdges hypergraph errors logicalFlips))[decoderEdge]? with
  | none =>
    have hlength := getElem?_eq_none_iff.mp hkey
    refine ⟨rfl, ?_⟩
    rw [getElem?_eq_none, getElem?_eq_none]
    · rw [hbase.length_representatives]
      exact hlength
    · rw [hshot.length_representatives, hkeys]
      exact hlength
  | some key =>
    have hcombined : combined mergeClass ((originalEdges hypergraph errors logicalFlips).map
          (overrideEdge overrides)) key =
        combined mergeClass (originalEdges hypergraph errors logicalFlips) key := by
      refine combined_map_eq_self fun edge hedge => ?_
      refine Option.eq_none_iff_forall_ne_some.mpr fun p hp => huntouched _ p hp ?_
      have hmem := mem_filter.mp hedge
      rw [hbase.getElem?_decoderEdgeOfOriginal (of_mem_originalEdges hmem.1).1,
        of_decide_eq_true hmem.2, groupIndex_eq _ hkey]
    obtain ⟨shotBest, -, hshotBest, hshotError⟩ :=
      hshot.exists_representative (hkeys ▸ hkey)
    obtain ⟨baseBest, -, hbaseBest, hbaseError⟩ := hbase.exists_representative hkey
    rw [hcombined, hbaseBest] at hshotBest
    obtain ⟨rfl, -⟩ := Prod.mk.inj (Option.some_inj.mp hshotBest)
    rw [hshotError, hbaseError, Option.map_some, Option.map_some, hcombined]
    exact ⟨rfl, rfl⟩

theorem exists_base_hyperedge (hbase : Groups mergeClass edges base)
    (hshot : Groups mergeClass (edges.map (overrideEdge overrides)) shot)
    {hyperedge : Hyperedge K} (hhyperedge : shot.hyperedges[decoderEdge]? = some hyperedge) :
    ∃ p, base.hyperedges[decoderEdge]? = some { hyperedge with probability := p } := by
  rw [hshot.getElem?_hyperedges, firstKeys_map _ (keyOf_overrideEdge mergeClass overrides)]
    at hhyperedge
  obtain ⟨key, hkey, rfl⟩ := Option.map_eq_some_iff.mp hhyperedge
  exact ⟨(combined mergeClass edges key).1, by rw [hbase.getElem?_hyperedges, hkey]; rfl⟩

theorem length_hyperedges_eq (hbase : Groups mergeClass edges base)
    (hshot : Groups mergeClass (edges.map (overrideEdge overrides)) shot) :
    shot.hyperedges.length = base.hyperedges.length := by
  rw [hshot.hyperedges, hbase.hyperedges, length_map, length_map,
    firstKeys_map _ (keyOf_overrideEdge mergeClass overrides)]

theorem Groups.decoderEdge_lt (hgroups : Groups mergeClass edges merging) {position : ℕ}
    (hposition : merging.decoderEdgeOfOriginal[position]? = some decoderEdge) :
    decoderEdge < merging.hyperedges.length := by
  rw [hgroups.decoderEdgeOfOriginal, getElem?_map] at hposition
  obtain ⟨edge, hedge, rfl⟩ := Option.map_eq_some_iff.mp hposition
  rw [hgroups.hyperedges, length_map]
  exact groupIndex_lt _ (mem_of_getElem? hedge)

end Merging

section Projection

variable {K : Type} [Field K] [LinearOrder K]

/-- Translated probabilities and errors make one prepared graph of another. -/
structure Projects (base shot : PreparedDecoderInput K) (translated : List (ℕ × K))
    (errors : ProjectedErrors) :
    Prop where
  vertexNum : shot.hypergraph.vertexNum = base.hypergraph.vertexNum
  hyperedges : shot.hypergraph.hyperedges =
    overridden (fun edge => (overridesOf translated).lookup edge) base.hypergraph.hyperedges
  below : EdgesBelow base.hypergraph.hyperedges.length translated
  logicalFlips : shot.logicalFlips = base.logicalFlips
  length : errors.baseline.length = shot.representatives.length
  index : ∀ edge, errors.index edge = shot.representatives[edge]?

variable {reweights : List (ℕ × K)} {errors : List ErrorIndex} {hypergraph : DecodingHypergraph K}
  {logicalFlips : List (List ℕ)} {base shot : PreparedDecoderInput K}

omit [Field K] [LinearOrder K] in
theorem mem_sortedOverrides {assignment : ℕ × K} :
    assignment ∈ ((overridesOf reweights).entries.map fun entry =>
        (entry.1, entry.2)).insertionSort (fun a b => a.1 ≤ b.1) ↔
      (overridesOf reweights).lookup assignment.1 = some assignment.2 := by
  rw [(perm_insertionSort _ _).mem_iff, mem_map]
  constructor
  · rintro ⟨entry, hentry, rfl⟩
    exact AList.mem_lookup_iff.mpr hentry
  · intro hlookup
    exact ⟨⟨assignment.1, assignment.2⟩, AList.mem_lookup_iff.mp hlookup, rfl⟩

omit [Field K] [LinearOrder K] in
theorem lookup_sortedOverrides (reweights : List (ℕ × K)) (edge : ℕ) :
    (overridesOf (((overridesOf reweights).entries.map fun entry =>
        (entry.1, entry.2)).insertionSort fun a b => a.1 ≤ b.1)).lookup edge =
      (overridesOf reweights).lookup edge := by
  refine Option.ext fun p => ⟨fun hp => ?_, fun hp => ?_⟩
  · exact mem_sortedOverrides.mp (mem_of_lookup_overridesOf hp)
  · have hmem : (edge, p) ∈ ((overridesOf reweights).entries.map fun entry =>
        (entry.1, entry.2)).insertionSort fun a b => a.1 ≤ b.1 := mem_sortedOverrides.mpr hp
    obtain ⟨other, hother⟩ := exists_lookup_overridesOf (mem_map_of_mem (f := Prod.fst) hmem)
    have hsame := mem_sortedOverrides.mp (mem_of_lookup_overridesOf hother)
    exact hother.trans (hsame.symm.trans hp)

theorem exists_projects_identity {mergeClass : ErrorIndex → ℕ}
    (hbelow : EdgesBelow hypergraph.hyperedges.length reweights) : ∃ projected,
      projectReweights (prepareDecoder hypergraph errors logicalFlips false mergeClass).1
          reweights = some projected ∧
        Projects (prepareDecoder hypergraph errors logicalFlips false mergeClass).2
          (prepareDecoder { hypergraph with
              hyperedges := overridden (fun edge => (overridesOf reweights).lookup edge)
                hypergraph.hyperedges } errors logicalFlips false mergeClass).2
          projected.1 projected.2 := by
  refine ⟨_, rfl, rfl, ?_, fun assignment hassignment => ?_, rfl, rfl, fun edge => rfl⟩
  · exact congrArg (fun overrides => overridden overrides hypergraph.hyperedges)
      (funext fun edge => (lookup_sortedOverrides reweights edge).symm)
  · exact hbelow assignment (mem_of_lookup_overridesOf (mem_sortedOverrides.mp hassignment))

/-- What a translated decoder edge says. -/
def IsTranslation (base shot : Merging K) (decoderEdge : ℕ)
    (translation : (ℕ × K) × Option (ℕ × ErrorIndex)) :
    Prop :=
  ∃ hyperedge baseError shotError,
    shot.hyperedges[decoderEdge]? = some hyperedge ∧
      base.representatives[decoderEdge]? = some baseError ∧
      shot.representatives[decoderEdge]? = some shotError ∧
      translation = ((decoderEdge, hyperedge.probability),
        if baseError ≠ shotError then some (decoderEdge, shotError) else none)

/-- Some decoder edges are translated. -/
structure Translates (base shot : Merging K) (edges : List ℕ)
    (translated : List ((ℕ × K) × Option (ℕ × ErrorIndex))) :
    Prop where
  sound : ∀ translation ∈ translated,
    ∃ edge ∈ edges, IsTranslation base shot edge translation
  complete : ∀ edge ∈ edges, ∃ translation ∈ translated, IsTranslation base shot edge translation

omit [Field K] [LinearOrder K] in
theorem Translates.lookup {base shot : Merging K} {edges : List ℕ}
    {translated : List ((ℕ × K) × Option (ℕ × ErrorIndex))}
    (htranslates : Translates base shot edges translated) {edge : ℕ} {hyperedge : Hyperedge K}
    (hhyperedge : shot.hyperedges[edge]? = some hyperedge) :
    (overridesOf (translated.map Prod.fst)).lookup edge =
      if edge ∈ edges then some hyperedge.probability else none := by
  have hvalue : ∀ p, (overridesOf (translated.map Prod.fst)).lookup edge = some p →
      edge ∈ edges ∧ p = hyperedge.probability := by
    intro p hp
    obtain ⟨translation, htranslation, heq⟩ :=
      mem_map.mp (mem_of_lookup_overridesOf hp)
    obtain ⟨other, hother, found, _, _, hfound, _, _, rfl⟩ :=
      htranslates.sound translation htranslation
    obtain ⟨rfl, rfl⟩ := Prod.mk.inj heq
    rw [hhyperedge] at hfound
    exact ⟨hother, congrArg Hyperedge.probability (Option.some_inj.mp hfound).symm⟩
  split
  · rename_i hedge
    obtain ⟨_, htranslation, found, _, _, _, _, _, rfl⟩ :=
      htranslates.complete edge hedge
    obtain ⟨p, hp⟩ := exists_lookup_overridesOf (mem_map_of_mem (f := Prod.fst)
      (mem_map_of_mem (f := Prod.fst) htranslation))
    exact hp.trans (congrArg some (hvalue p hp).2)
  · rename_i hedge
    exact Option.eq_none_iff_forall_ne_some.mpr fun p hp => hedge (hvalue p hp).1

omit [Field K] [LinearOrder K] in
theorem Translates.index {base shot : Merging K} {edges : List ℕ}
    {translated : List ((ℕ × K) × Option (ℕ × ErrorIndex))}
    (htranslates : Translates base shot edges translated) (huntouched : ∀ edge, edge ∉ edges →
      shot.representatives[edge]? = base.representatives[edge]?) (edge : ℕ) :
    ProjectedErrors.index ⟨base.representatives, translated.filterMap Prod.snd⟩ edge =
      shot.representatives[edge]? := by
  have hreplacement : ∀ replacement ∈ translated.filterMap Prod.snd,
      shot.representatives[replacement.1]? = some replacement.2 := by
    intro replacement hmem
    obtain ⟨translation, htranslation, heq⟩ := mem_filterMap.mp hmem
    obtain ⟨other, _, _, _, shotError, _, _, hshot, rfl⟩ :=
      htranslates.sound translation htranslation
    obtain ⟨-, hreplaced⟩ := Option.ite_none_right_eq_some.mp heq
    obtain rfl := Option.some_inj.mp hreplaced
    exact hshot
  rw [ProjectedErrors.index]
  cases hfind : (translated.filterMap Prod.snd).find? fun replacement =>
      replacement.1 == edge with
  | some replacement =>
    have hfound := find?_some hfind
    have hedge : replacement.1 = edge := beq_iff_eq.mp hfound
    rw [← hedge, hreplacement replacement (mem_of_find?_eq_some hfind)]
    rfl
  | none =>
    rw [Option.elim_none]
    by_cases hedge : edge ∈ edges
    · obtain ⟨_, htranslation, _, baseError, shotError, _, hbase, hshot, rfl⟩ :=
        htranslates.complete edge hedge
      by_cases hsame : baseError = shotError
      · rw [hbase, hshot, hsame]
      · refine absurd ?_ (find?_eq_none.mp hfind (edge, shotError)
          (mem_filterMap.mpr ⟨_, htranslation, if_pos hsame⟩))
        exact beq_self_eq_true edge
    · exact (huntouched edge hedge).symm

omit [Field K] [LinearOrder K] in
theorem exists_translated_edges {decoderEdgeOfOriginal : List ℕ}
    (hbelow : EdgesBelow decoderEdgeOfOriginal.length reweights) :
    ∃ edges, reweights.mapM (fun assignment => decoderEdgeOfOriginal[assignment.1]?) = some edges ∧
      ∀ decoderEdge, decoderEdge ∈ (sortIndices edges).destutter (· ≠ ·) ↔
        ∃ assignment ∈ reweights, decoderEdgeOfOriginal[assignment.1]? = some decoderEdge := by
  have hsome : ∀ assignment ∈ reweights, (decoderEdgeOfOriginal[assignment.1]?).isSome := by
    intro assignment hassignment
    rw [getElem?_eq_getElem (hbelow assignment hassignment)]
    rfl
  obtain ⟨edges, hedges⟩ := Option.isSome_iff_exists.mp (isSome_mapM_iff.mpr hsome)
  refine ⟨edges, hedges, fun decoderEdge => ?_⟩
  rw [mem_destutter_ne, sortIndices, (perm_insertionSort _ _).mem_iff, mem_mapM_iff hedges]

theorem exists_projects_merged (herrors : hypergraph.hyperedges.length = errors.length)
    (hflips : hypergraph.hyperedges.length = logicalFlips.length) {mergeClass : ErrorIndex → ℕ} (hbelow : EdgesBelow hypergraph.hyperedges.length reweights) :
    ∃ projected, projectReweights (prepareDecoder hypergraph errors logicalFlips true mergeClass).1
          reweights = some projected ∧
        Projects (prepareDecoder hypergraph errors logicalFlips true mergeClass).2
          (prepareDecoder { hypergraph with
              hyperedges := overridden (fun edge => (overridesOf reweights).lookup edge)
                hypergraph.hyperedges } errors logicalFlips true mergeClass).2
          projected.1 projected.2 := by
  let base := addAll mergeClass (originalEdges hypergraph errors logicalFlips)
  let shot := addAll mergeClass
    ((originalEdges hypergraph errors logicalFlips).map
      (overrideEdge fun edge => (overridesOf reweights).lookup edge))
  have hbase : Merging.Groups mergeClass
      (originalEdges hypergraph errors logicalFlips) base := groups_addAll _
  have hshot : Merging.Groups mergeClass
      ((originalEdges hypergraph errors logicalFlips).map
        (overrideEdge fun edge => (overridesOf reweights).lookup edge)) shot :=
    groups_addAll _
  have hlength : base.decoderEdgeOfOriginal.length = hypergraph.hyperedges.length := by
    rw [hbase.decoderEdgeOfOriginal, length_map, length_originalEdges herrors hflips]
  obtain ⟨edges, hedges, hmem⟩ := exists_translated_edges (hlength ▸ hbelow)
  let projection := (prepareDecoder hypergraph errors logicalFlips true mergeClass).1
  have hstep : ∀ edge ∈ (sortIndices edges).destutter (· ≠ ·), ∃ translation,
      projectEdge projection base.originalEdgesOfDecoder (overridesOf reweights) edge =
        some translation ∧ IsTranslation base shot edge translation := by
    intro edge hedge
    obtain ⟨assignment, -, hdecoder⟩ := (hmem edge).mp hedge
    have hlt : edge < shot.hyperedges.length := by
      rw [length_hyperedges_eq hbase hshot]
      exact hbase.decoderEdge_lt hdecoder
    obtain ⟨baseError, shotError, hbaseError, hshotError, hproject⟩ :=
      projectEdge_eq (overridesOf reweights) hbase hshot projection rfl rfl rfl
        (getElem?_eq_getElem hlt)
    exact ⟨_, hproject, _, baseError, shotError, getElem?_eq_getElem hlt, hbaseError,
      hshotError, rfl⟩
  obtain ⟨translated, htranslated⟩ := Option.isSome_iff_exists.mp
    (isSome_mapM_iff.mpr fun edge hedge => by
      obtain ⟨translation, hproject, -⟩ := hstep edge hedge
      exact Option.isSome_iff_exists.mpr ⟨translation, hproject⟩)
  have htranslates : Translates base shot ((sortIndices edges).destutter (· ≠ ·)) translated := by
    constructor
    · intro translation htranslation
      obtain ⟨edge, hedge, hproject⟩ := (mem_mapM_iff htranslated).mp htranslation
      obtain ⟨other, hother, hsays⟩ := hstep edge hedge
      obtain rfl := Option.some_inj.mp (hproject.symm.trans hother)
      exact ⟨edge, hedge, hsays⟩
    · intro edge hedge
      obtain ⟨translation, hproject, hsays⟩ := hstep edge hedge
      exact ⟨translation, (mem_mapM_iff htranslated).mpr ⟨edge, hedge, hproject⟩, hsays⟩
  have huntouched : ∀ edge, edge ∉ (sortIndices edges).destutter (· ≠ ·) →
      shot.hyperedges[edge]? = base.hyperedges[edge]? ∧
        shot.representatives[edge]? = base.representatives[edge]? := by
    intro edge hedge
    refine eq_base_of_not_translated _ hbase hshot fun original p hp hdecoder =>
      hedge ((hmem edge).mpr ⟨(original, p), mem_of_lookup_overridesOf hp, hdecoder⟩)
  have hprepared : (prepareDecoder { hypergraph with
        hyperedges := overridden (fun edge => (overridesOf reweights).lookup edge)
          hypergraph.hyperedges } errors logicalFlips true mergeClass).2 =
      ⟨⟨hypergraph.vertexNum, shot.hyperedges⟩, shot.representatives, shot.logicalFlips⟩ := by
    simp only [prepareDecoder, deduplicateBySyndrome, originalEdges_overridden, if_true]
    rfl
  have hrepresentatives : base.representatives.length = shot.representatives.length := by
    rw [hbase.length_representatives, hshot.length_representatives,
      firstKeys_map _ (keyOf_overrideEdge mergeClass _)]
  refine ⟨(translated.map Prod.fst, ⟨base.representatives, translated.filterMap Prod.snd⟩), ?_, ?_⟩
  · exact Option.bind_eq_some_iff.mpr ⟨edges, hedges, Option.bind_eq_some_iff.mpr
      ⟨translated, htranslated, rfl⟩⟩
  · rw [hprepared]
    refine ⟨rfl, ext_getElem? fun edge => ?_, fun assignment hassignment => ?_, ?_,
      hrepresentatives, htranslates.index fun edge hedge => (huntouched edge hedge).2⟩
    · rw [getElem?_overridden]
      cases hhyperedge : shot.hyperedges[edge]? with
      | none =>
        have hnone : base.hyperedges[edge]? = none := by
          rw [getElem?_eq_none_iff, ← length_hyperedges_eq hbase hshot]
          exact getElem?_eq_none_iff.mp hhyperedge
        exact (congrArg (Option.map _) hnone).symm
      | some hyperedge =>
        obtain ⟨p, hp⟩ := exists_base_hyperedge hbase hshot hhyperedge
        rw [htranslates.lookup hhyperedge]
        split
        · refine Eq.trans ?_ (congrArg (Option.map _) hp).symm
          rfl
        · rename_i hedge
          have hsame := (huntouched edge hedge).1.symm.trans hhyperedge
          refine Eq.trans ?_ (congrArg (Option.map _) hsame).symm
          rfl
    · obtain ⟨translation, htranslation, rfl⟩ := mem_map.mp hassignment
      obtain ⟨edge, hedge, _, _, _, _, _, _, rfl⟩ := htranslates.sound translation htranslation
      obtain ⟨original, -, hdecoder⟩ := (hmem edge).mp hedge
      exact hbase.decoderEdge_lt hdecoder
    · exact hshot.logicalFlips.trans
        ((congrArg (List.map fun key => key.2.1)
          (firstKeys_map _ (keyOf_overrideEdge mergeClass _) _)).trans
          hbase.logicalFlips.symm)

theorem exists_projects (herrors : hypergraph.hyperedges.length = errors.length)
    (hflips : hypergraph.hyperedges.length = logicalFlips.length) (merge : Bool)
    (mergeClass : ErrorIndex → ℕ)
    (hbelow : EdgesBelow hypergraph.hyperedges.length reweights) : ∃ projected,
      projectReweights (prepareDecoder hypergraph errors logicalFlips merge mergeClass).1
          reweights = some projected ∧
        Projects (prepareDecoder hypergraph errors logicalFlips merge mergeClass).2
          (prepareDecoder { hypergraph with
              hyperedges := overridden (fun edge => (overridesOf reweights).lookup edge)
                hypergraph.hyperedges } errors logicalFlips merge mergeClass).2
          projected.1 projected.2 := by
  cases merge with
  | false => exact exists_projects_identity hbelow
  | true => exact exists_projects_merged herrors hflips hbelow

omit [LinearOrder K] in
theorem getElem?_hardDecodingHypergraph (hypergraph : DecodingHypergraph K)
    (logicalFlips : List (List ℕ)) (edge : ℕ) :
    (hardDecodingHypergraph hypergraph logicalFlips).hyperedges[edge]? =
      hypergraph.hyperedges[edge]?.map fun hyperedge =>
        if (logicalFlips[edge]?).any (requiresHardDecodingSuppression hyperedge) then
          { hyperedge with probability := 0 }
        else hyperedge := by
  rw [hardDecodingHypergraph, getElem?_map, getElem?_zipIdx, Option.map_map, Nat.zero_add]
  rfl

omit [LinearOrder K] in
theorem contains_hardSuppressedEdges (projection : DecodeProjection K)
    (prepared : PreparedDecoderInput K) (retain ignore : Bool) {edge : ℕ} {hyperedge : Hyperedge K}
    (hhyperedge : prepared.hypergraph.hyperedges[edge]? = some hyperedge) :
    (loadProjectedDecoder projection prepared retain ignore).hardSuppressedEdges.contains edge =
      (prepared.logicalFlips[edge]?).any (requiresHardDecodingSuppression hyperedge) := by
  rw [Bool.eq_iff_iff, contains_iff_mem, loadProjectedDecoder, mem_map, Option.any_eq_true]
  constructor
  · rintro ⟨entry, hentry, rfl⟩
    obtain ⟨hzip, hrequires⟩ := mem_filter.mp hentry
    obtain ⟨hfound, hflips⟩ :=
      getElem?_zip_eq_some.mp (mem_zipIdx_iff_getElem?.mp hzip)
    rw [hhyperedge] at hfound
    obtain rfl := Option.some_inj.mp hfound
    exact ⟨_, hflips, hrequires⟩
  · rintro ⟨flips, hflips, hrequires⟩
    refine ⟨((hyperedge, flips), edge), mem_filter.mpr ⟨?_, hrequires⟩, rfl⟩
    exact mem_zipIdx_iff_getElem?.mpr
      (getElem?_zip_eq_some.mpr ⟨hhyperedge, hflips⟩)

omit [LinearOrder K] in
theorem Projects.hardDecodingHypergraph_eq
    {translated : List (ℕ × K)} {errors : ProjectedErrors}
    (hprojects : Projects base shot translated errors) (projection : DecodeProjection K)
    (retain ignore : Bool) :
    overridden (fun edge => (overridesOf (translated.filter fun assignment =>
        !(loadProjectedDecoder projection base retain ignore).hardSuppressedEdges.contains
          assignment.1)).lookup edge)
        (hardDecodingHypergraph base.hypergraph base.logicalFlips).hyperedges =
      (hardDecodingHypergraph shot.hypergraph shot.logicalFlips).hyperedges := by
  refine ext_getElem? fun edge => ?_
  rw [getElem?_overridden, getElem?_hardDecodingHypergraph, getElem?_hardDecodingHypergraph,
    hprojects.hyperedges, getElem?_overridden, hprojects.logicalFlips,
    lookup_overridesOf_filter fun edge =>
      !(loadProjectedDecoder projection base retain ignore).hardSuppressedEdges.contains edge]
  cases hhyperedge : base.hypergraph.hyperedges[edge]? with
  | none => rfl
  | some hyperedge =>
    rw [contains_hardSuppressedEdges projection base retain ignore hhyperedge]
    have hsame : requiresHardDecodingSuppression { hyperedge with
        probability := ((overridesOf translated).lookup edge).getD hyperedge.probability } =
      requiresHardDecodingSuppression hyperedge := rfl
    rw [Option.map_some, Option.map_some, Option.map_some, Option.map_some, hsame]
    by_cases hsuppressed :
        (base.logicalFlips[edge]?).any (requiresHardDecodingSuppression hyperedge)
    · simp [hsuppressed]
    · simp [hsuppressed]

omit [Field K] [LinearOrder K] in
theorem Projects.edgeIsolatedVertices_eq
    {translated : List (ℕ × K)} {errors : ProjectedErrors}
    (hprojects : Projects base shot translated errors) :
    edgeIsolatedVertices shot.hypergraph = edgeIsolatedVertices base.hypergraph := by
  have hvertices : shot.hypergraph.hyperedges.map Hyperedge.vertices =
      base.hypergraph.hyperedges.map Hyperedge.vertices := by
    refine ext_getElem? fun edge => ?_
    rw [getElem?_map, getElem?_map, hprojects.hyperedges, getElem?_overridden, Option.map_map]
    rfl
  have hany : ∀ vertex, (shot.hypergraph.hyperedges.any fun hyperedge =>
        hyperedge.vertices.contains vertex) =
      base.hypergraph.hyperedges.any fun hyperedge => hyperedge.vertices.contains vertex := by
    intro vertex
    have h := congrArg (List.any · fun vertices => vertices.contains vertex) hvertices
    rwa [any_map, any_map] at h
  rw [edgeIsolatedVertices, edgeIsolatedVertices, hprojects.vertexNum]
  simp only [hany]

omit [LinearOrder K] in
theorem Projects.exists_decodeProjected
    {translated : List (ℕ × K)} {errors : ProjectedErrors}
    (hprojects : Projects base shot translated errors) (projection : DecodeProjection K)
    {retain useLoaded : Bool} (hretain : useLoaded = false → retain = true) (ignore : Bool)
    (syndrome : List Bool) (loss : Option (List (LossSite K))) : ∃ request,
      decodeProjected (loadProjectedDecoder projection base retain ignore) syndrome translated
          loss useLoaded = some request ∧
        request.materialize (loadProjectedDecoder projection base retain ignore) =
          some ⟨hardDecodingHypergraph shot.hypergraph shot.logicalFlips, syndrome, loss⟩ := by
  let loaded := loadProjectedDecoder projection base retain ignore
  let kept := translated.filter fun assignment =>
    !loaded.hardSuppressedEdges.contains assignment.1
  have hbelow : EdgesBelow
      (hardDecodingHypergraph base.hypergraph base.logicalFlips).hyperedges.length kept := by
    intro assignment hassignment
    rw [hardDecodingHypergraph, length_map, length_zipIdx]
    exact hprojects.below assignment (mem_of_mem_filter hassignment)
  have happly : applyReweights (hardDecodingHypergraph base.hypergraph base.logicalFlips) kept =
      some (hardDecodingHypergraph shot.hypergraph shot.logicalFlips) := by
    rw [applyReweights_eq hbelow]
    refine congrArg some ?_
    rw [hprojects.hardDecodingHypergraph_eq projection retain ignore]
    exact congrArg (fun vertexNum => DecodingHypergraph.mk vertexNum
      (hardDecodingHypergraph shot.hypergraph shot.logicalFlips).hyperedges)
        hprojects.vertexNum.symm
  by_cases hloaded : kept.isEmpty || useLoaded
  · refine ⟨.loaded syndrome kept loss, if_pos hloaded, ?_⟩
    exact Option.bind_eq_some_iff.mpr ⟨_, happly, rfl⟩
  · have huse : useLoaded = false := by
      cases useLoaded
      · rfl
      · simp at hloaded
    have hkept : loaded.decodingHypergraph = some base.hypergraph := if_pos (hretain huse)
    refine ⟨.problem ⟨hardDecodingHypergraph shot.hypergraph shot.logicalFlips, syndrome, loss⟩,
      (if_neg hloaded).trans ?_, rfl⟩
    exact Option.bind_eq_some_iff.mpr ⟨_, hkept, Option.bind_eq_some_iff.mpr ⟨_, happly, rfl⟩⟩

end Projection

section Losses

variable {K W : Type} [Field K] [LinearOrder K]

@[simp]
theorem projectReweights_nil (projection : DecodeProjection K) :
    projectReweights projection [] = some ([], ⟨projection.decoderErrors, []⟩) := by
  rw [projectReweights]
  cases projection.edgeProjection <;> rfl

theorem exists_shot_reweights (handler : LossHandler W) (scale : WeightScale K W)
    (projection : DecodeProjection K) {reweights : List (ℕ × K)}
    (hnodup : (reweights.map Prod.fst).Nodup)
    (herrors : projection.baseHypergraph.hyperedges.length = projection.baseErrors.length)
    (hbelow : EdgesBelow projection.baseHypergraph.hyperedges.length reweights)
    (lossSites : List (RawLossSite K)) : ∃ combined loss,
      EdgesBelow projection.baseHypergraph.hyperedges.length combined ∧
        handler.applySites scale { projection.baseHypergraph with
            hyperedges := overridden (fun edge => (overridesOf reweights).lookup edge)
              projection.baseHypergraph.hyperedges } lossSites projection.baseErrors =
          some ({ projection.baseHypergraph with
            hyperedges := overridden (fun edge => (overridesOf combined).lookup edge)
              projection.baseHypergraph.hyperedges }, loss) ∧
        ∀ projected, projectReweights projection combined = some projected →
          handler.projectShot scale projection reweights lossSites =
            some ⟨projected.1, loss, projected.2⟩ := by
  by_cases hnone : reweights.isEmpty && lossSites.isEmpty
  · obtain ⟨hreweights, hsites⟩ := Bool.and_eq_true_iff.mp hnone
    obtain rfl := isEmpty_iff.mp hreweights
    obtain rfl := isEmpty_iff.mp hsites
    refine ⟨[], none, hbelow, if_pos (by simp), fun projected hprojected => ?_⟩
    rw [projectReweights_nil] at hprojected
    obtain rfl := Option.some_inj.mp hprojected
    rw [projectShot, if_pos hnone, projectReweights_nil]
    rfl
  · cases handler with
    | ignore =>
      refine ⟨reweights, none, hbelow, rfl, fun projected hprojected => ?_⟩
      rw [projectShot, if_neg hnone]
      exact Option.bind_eq_some_iff.mpr ⟨projected, hprojected, rfl⟩
    | handoff =>
      refine ⟨reweights, if lossSites.isEmpty then none
        else some (buildLossInfo lossSites projection.baseErrors), hbelow, ?_,
        fun projected hprojected => ?_⟩
      · cases hsites : lossSites.isEmpty <;> simp [applySites, hsites,
          tracksLosses, handsOffToDecoder]
      · rw [projectShot, if_neg hnone]
        refine Option.bind_eq_some_iff.mpr ⟨projected, hprojected, ?_⟩
        cases lossSites.isEmpty <;> rfl
    | reweight policy =>
      cases hsites : lossSites.isEmpty with
      | true =>
        refine ⟨reweights, none, hbelow, ?_, fun projected hprojected => ?_⟩
        · simp [applySites, hsites]
        · rw [projectShot, if_neg hnone, hsites]
          exact Option.bind_eq_some_iff.mpr ⟨projected, hprojected, rfl⟩
      | false =>
        let live : DecodingHypergraph K := { projection.baseHypergraph with
          hyperedges := overridden (fun edge => (overridesOf reweights).lookup edge)
            projection.baseHypergraph.hyperedges }
        let losses := lossReweights scale
          (buildLossInfo lossSites projection.baseErrors) live policy
        have hlosses : EdgesBelow projection.baseHypergraph.hyperedges.length losses :=
          herrors ▸ edgesBelow_lossReweights scale lossSites projection.baseErrors live policy
        refine ⟨combineReweights reweights losses, none,
          edgesBelow_combineReweights hnodup hbelow hlosses, ?_,
          fun projected hprojected => ?_⟩
        · rw [applySites, hsites]
          refine congrArg (fun hyperedges => some (DecodingHypergraph.mk
            projection.baseHypergraph.vertexNum hyperedges, none)) ?_
          rw [foldl_setProbability, overridden_overridden]
          exact congrArg (fun overrides => overridden overrides
            projection.baseHypergraph.hyperedges)
              (funext fun edge => (lookup_combineReweights hnodup losses edge).symm)
        · rw [projectShot, if_neg hnone, hsites]
          refine Option.bind_eq_some_iff.mpr
            ⟨combineReweights reweights losses, ?_,
              Option.bind_eq_some_iff.mpr ⟨projected, hprojected, rfl⟩⟩
          exact Option.bind_eq_some_iff.mpr ⟨live, applyReweights_eq hbelow, rfl⟩

/-- Decoding a shot with a loaded graph asks for the problem of the shot.  The graph, the
syndrome, the losses and the error of every edge are those of a graph that is reweighted first,
then merged and then suppressed. -/
theorem decodePersistent_eq_decodeTemporary (config : ShotConfig W) (scale : WeightScale K W)
    (hypergraph : DecodingHypergraph K) (errors : List ErrorIndex) (logicalFlips : List (List ℕ))
    (herrors : hypergraph.hyperedges.length = errors.length)
    (hflips : hypergraph.hyperedges.length = logicalFlips.length) (mergeClass : ErrorIndex → ℕ)
    (modifiers : List (ℕ × ProbabilityModifier K)) (lossSites : List (RawLossSite K))
    (syndrome : List Bool) : ∃ loaded request projected problem representatives,
      decodePersistent config scale hypergraph errors logicalFlips mergeClass modifiers
          lossSites syndrome = some (loaded, request, projected) ∧
        decodeTemporary config scale hypergraph errors logicalFlips mergeClass modifiers
          lossSites syndrome = some (problem, representatives) ∧
        request.materialize loaded = some problem ∧
        projected.baseline.length = representatives.length ∧
        ∀ edge, projected.index edge = representatives[edge]? := by
  let prepared := prepareDecoder hypergraph errors logicalFlips config.deduplicate mergeClass
  let reweights := probabilityReweights errors modifiers
  have hbelow : EdgesBelow hypergraph.hyperedges.length reweights :=
    herrors ▸ ErrorEdgeLookup.edgesBelow_project (ErrorEdgeLookup.below_new errors) modifiers
  obtain ⟨combined, loss, hcombined, hsites, hshot⟩ := exists_shot_reweights config.handler scale
    prepared.1 (ErrorEdgeLookup.nodup_project _ modifiers) herrors hbelow lossSites
  obtain ⟨projected, hprojected, hprojects⟩ :=
    exists_projects herrors hflips config.deduplicate mergeClass hcombined
  have hretain : config.useLoadedReweights = false → config.retainDecodingHypergraph = true := by
    intro huse
    simp [ShotConfig.retainDecodingHypergraph, huse]
  let loaded := loadProjectedDecoder prepared.1 prepared.2 config.retainDecodingHypergraph
    config.ignoreIsolatedVertices
  obtain ⟨request, hrequest, hmaterialize⟩ := hprojects.exists_decodeProjected prepared.1 hretain
    config.ignoreIsolatedVertices (loaded.projectSyndrome syndrome) loss
  let live : DecodingHypergraph K := { hypergraph with
    hyperedges := overridden (fun edge => (overridesOf combined).lookup edge)
      hypergraph.hyperedges }
  have hsyndrome : loaded.projectSyndrome syndrome =
      if config.ignoreIsolatedVertices then ignoreEdgeIsolatedHistoryVertices
        (prepareDecoder live errors logicalFlips config.deduplicate mergeClass).2.hypergraph syndrome
      else syndrome := by
    rw [ignoreEdgeIsolatedHistoryVertices, hprojects.edgeIsolatedVertices_eq]
    change clearVertices (if config.ignoreIsolatedVertices then
      edgeIsolatedVertices prepared.2.hypergraph else []) syndrome = _
    split <;> rfl
  have hprepared : (prepareDecoder live errors logicalFlips config.deduplicate mergeClass).2 =
      if config.deduplicate then deduplicateDecoderInput live errors logicalFlips mergeClass
      else ⟨live, errors, logicalFlips⟩ := by
    rw [prepareDecoder]
    split <;> rfl
  refine ⟨loaded, request, projected.2, _, _, ?_, ?_, hmaterialize, hprojects.length,
    hprojects.index⟩
  · exact Option.bind_eq_some_iff.mpr ⟨_, hshot projected hprojected,
      Option.bind_eq_some_iff.mpr ⟨request, hrequest, rfl⟩⟩
  · refine Option.bind_eq_some_iff.mpr ⟨_, applyReweights_eq hbelow,
      Option.bind_eq_some_iff.mpr ⟨_, hsites, ?_⟩⟩
    rw [hsyndrome, hprepared]
    rfl

/-- The logit of probabilities around one half, with its inverse. -/
def halfScale : WeightScale ℚ ℚ where
  weightOf p := 1 - 2 * p
  probabilityOfWeight w := (1 - w) / 2
  zero := 0
  add := (· + ·)
  max := max
  scale := (· * ·)
  mean total count := total / count

/-- Two merged edges, one of which is reweighted and one of which a loss activates. -/
theorem decodePersistent_eq_decodeTemporary_two :
    ∃ loaded request projected problem representatives,
      decodePersistent ⟨.reweight ⟨1 / 2, .localScale⟩, true, true, false, false, true⟩ halfScale
          ⟨2, [⟨[0], 1 / 2, none⟩, ⟨[0], 0, none⟩]⟩ [⟨0, 0⟩, ⟨0, 1⟩] [[], []] (fun _ => 0)
          [(0, ⟨[1 / 4], [], []⟩)] [⟨some 0, 1 / 2, [1], [], [], []⟩] [true, true] =
        some (loaded, request, projected) ∧
        decodeTemporary ⟨.reweight ⟨1 / 2, .localScale⟩, true, true, false, false, true⟩
          halfScale ⟨2, [⟨[0], 1 / 2, none⟩, ⟨[0], 0, none⟩]⟩ [⟨0, 0⟩, ⟨0, 1⟩] [[], []]
          (fun _ => 0) [(0, ⟨[1 / 4], [], []⟩)] [⟨some 0, 1 / 2, [1], [], [], []⟩] [true, true] =
        some (problem, representatives) ∧ request.materialize loaded = some problem ∧
        projected.baseline.length = representatives.length ∧
        ∀ edge, projected.index edge = representatives[edge]? :=
  decodePersistent_eq_decodeTemporary _ _ _ _ _ rfl rfl _ _ _ _

end Losses

end QdkEc
