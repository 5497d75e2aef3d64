import QdkEc.DeqRuntime.ReweightHandler
import QdkEc.Lib.Grouping

/-!
# Merged edges are groups

This module shows that merging leaves one decoder edge for each key, in the order in
which the keys first occur.  The probability of a decoder edge and the error that
represents it come from its original edges alone.
-/

namespace QdkEc

open List

section Combine

variable {K ι κ : Type} [Field K] [LinearOrder K]

omit [LinearOrder K] in
@[simp]
theorem exclusiveProbabilityOf_zero (p : K) : exclusiveProbabilityOf 0 p = p := by
  simp [exclusiveProbabilityOf]

theorem combine_concat (probabilities : List (ι × K)) (entry : ι × K) :
    combine (probabilities ++ [entry]) = (exclusiveProbabilityOf (combine probabilities).1 entry.2,
        elect (combine probabilities).2 entry) := by
  rw [combine, foldl_append]
  rfl

theorem combine_map (name : ι → κ) (probabilities : List (ι × K)) :
    combine (probabilities.map fun entry => (name entry.1, entry.2)) = ((combine probabilities).1,
        (combine probabilities).2.map fun best => (name best.1, best.2)) := by
  induction probabilities using List.reverseRecOn with
  | nil => rfl
  | append_singleton probabilities entry ih =>
    rw [map_append, map_singleton, combine_concat, combine_concat, ih]
    refine Prod.ext rfl ?_
    cases (combine probabilities).2 with
    | none => rfl
    | some best =>
      by_cases hbest : best.2 < entry.2
      · simp [elect, hbest]
      · simp [elect, hbest]

theorem exists_elected {probabilities : List (ι × K)} (hne : probabilities ≠ []) :
    ∃ best ∈ probabilities, (combine probabilities).2 = some best := by
  induction probabilities using List.reverseRecOn with
  | nil => exact absurd rfl hne
  | append_singleton probabilities entry ih =>
    rw [combine_concat]
    rcases probabilities.eq_nil_or_concat with rfl | ⟨front, last, hfront⟩
    · exact ⟨entry, by simp, rfl⟩
    · obtain ⟨best, hbest, helected⟩ := ih (by simp [hfront])
      rw [helected]
      by_cases hless : best.2 < entry.2
      · exact ⟨entry, by simp, by simp [elect, hless]⟩
      · exact ⟨best, mem_append_left _ hbest, by simp [elect, hless]⟩

end Combine

namespace Merging

open Grouping

variable {K : Type} [Field K] [LinearOrder K] (mergeClass : ErrorIndex → ℕ)

/-- The probability of a key and the edge that represents it. -/
def combined (edges : List (OriginalEdge K)) (key : MergeKey) : K × Option (OriginalEdge K × K) :=
  combine ((members (keyOf mergeClass) edges key).map fun edge =>
    (edge, edge.hyperedge.probability))

theorem combined_concat_self (edges : List (OriginalEdge K)) (edge : OriginalEdge K) :
    combined mergeClass (edges ++ [edge]) (keyOf mergeClass edge) =
      (exclusiveProbabilityOf (combined mergeClass edges (keyOf mergeClass edge)).1
          edge.hyperedge.probability, elect (combined mergeClass edges (keyOf mergeClass edge)).2
          (edge, edge.hyperedge.probability)) := by
  rw [combined, members_concat_self, map_append, map_singleton, combine_concat]
  rfl

variable {edges : List (OriginalEdge K)} {edge : OriginalEdge K} {key : MergeKey}

theorem combined_concat_ne (hne : key ≠ keyOf mergeClass edge) :
    combined mergeClass (edges ++ [edge]) key = combined mergeClass edges key := by
  rw [combined, members_concat_ne _ hne]
  rfl

theorem combined_eq_of_notMem (hfresh : key ∉ firstKeys (keyOf mergeClass) edges) :
    combined mergeClass edges key = (0, none) := by
  rw [combined, members_eq_nil _ hfresh]
  rfl

theorem exists_combined_elected (hkey : key ∈ firstKeys (keyOf mergeClass) edges) :
    ∃ best ∈ members (keyOf mergeClass) edges key,
      (combined mergeClass edges key).2 = some (best, best.hyperedge.probability) := by
  have hne : (members (keyOf mergeClass) edges key).map (fun edge =>
      (edge, edge.hyperedge.probability)) ≠ [] := by
    simpa using members_ne_nil _ hkey
  obtain ⟨entry, hentry, helected⟩ := exists_elected hne
  obtain ⟨best, hbest, rfl⟩ := mem_map.mp hentry
  exact ⟨best, hbest, helected⟩

/-- What a merge holds after some edges. -/
structure Groups (edges : List (OriginalEdge K)) (merging : Merging K) : Prop where
  seen : ∀ key, merging.seen.lookup key =
    (combined mergeClass edges key).2.map fun best =>
      (groupIndex (keyOf mergeClass) edges key, best.2)
  hyperedges : merging.hyperedges = (firstKeys (keyOf mergeClass) edges).map fun key =>
    ⟨key.1, (combined mergeClass edges key).1, key.2.2.1⟩
  logicalFlips : merging.logicalFlips =
    (firstKeys (keyOf mergeClass) edges).map fun key => key.2.1
  representatives : merging.representatives.map some =
    (firstKeys (keyOf mergeClass) edges).map fun key =>
      (combined mergeClass edges key).2.map fun best => best.1.error
  decoderEdgeOfOriginal : merging.decoderEdgeOfOriginal =
    edges.map fun edge => groupIndex (keyOf mergeClass) edges (keyOf mergeClass edge)
  originalEdgesOfDecoder : merging.originalEdgesOfDecoder =
    (firstKeys (keyOf mergeClass) edges).map fun key =>
      (members (keyOf mergeClass) edges key).map OriginalEdge.position

theorem groups_empty : Groups mergeClass [] (empty : Merging K) where
  seen _ := rfl
  hyperedges := rfl
  logicalFlips := rfl
  representatives := rfl
  decoderEdgeOfOriginal := rfl
  originalEdgesOfDecoder := rfl

variable {mergeClass}

variable {merging : Merging K}

theorem Groups.length_representatives (hgroups : Groups mergeClass edges merging) :
    merging.representatives.length = (firstKeys (keyOf mergeClass) edges).length := by
  simpa using congrArg List.length hgroups.representatives

theorem add_of_seen {index : ℕ} {bestProbability : K}
    (hseen : merging.seen.lookup (keyOf mergeClass edge) = some (index, bestProbability)) :
    add mergeClass merging edge =
      { seen :=
          if bestProbability < edge.hyperedge.probability then
            merging.seen.insert (keyOf mergeClass edge) (index, edge.hyperedge.probability)
          else merging.seen
        hyperedges := merging.hyperedges.modify index fun hyperedge => { hyperedge with
          probability :=
            exclusiveProbabilityOf hyperedge.probability edge.hyperedge.probability }
        logicalFlips := merging.logicalFlips
        representatives :=
          if bestProbability < edge.hyperedge.probability then
            merging.representatives.set index edge.error
          else merging.representatives
        decoderEdgeOfOriginal := merging.decoderEdgeOfOriginal ++ [index]
        originalEdgesOfDecoder :=
          merging.originalEdgesOfDecoder.modify index (· ++ [edge.position]) } := by
  simp only [add, hseen]

theorem add_of_not_seen (hseen : merging.seen.lookup (keyOf mergeClass edge) = none) :
    add mergeClass merging edge =
      { seen := merging.seen.insert (keyOf mergeClass edge)
          (merging.representatives.length, edge.hyperedge.probability)
        hyperedges := merging.hyperedges ++ [⟨(keyOf mergeClass edge).1,
          edge.hyperedge.probability, (keyOf mergeClass edge).2.2.1⟩]
        logicalFlips := merging.logicalFlips ++ [(keyOf mergeClass edge).2.1]
        representatives := merging.representatives ++ [edge.error]
        decoderEdgeOfOriginal :=
          merging.decoderEdgeOfOriginal ++ [merging.representatives.length]
        originalEdgesOfDecoder := merging.originalEdgesOfDecoder ++ [[edge.position]] } := by
  simp only [add, hseen]

theorem seen_concat_ne (hne : key ≠ keyOf mergeClass edge) :
    ((combined mergeClass (edges ++ [edge]) key).2.map fun best =>
        (groupIndex (keyOf mergeClass) (edges ++ [edge]) key, best.2)) =
      (combined mergeClass edges key).2.map fun best =>
        (groupIndex (keyOf mergeClass) edges key, best.2) := by
  rw [combined_concat_ne mergeClass hne]
  by_cases hkey : key ∈ firstKeys (keyOf mergeClass) edges
  · rw [groupIndex_concat _ hkey]
  · rw [combined_eq_of_notMem mergeClass hkey]
    rfl

omit [Field K] [LinearOrder K] in
theorem decoderEdges_concat (edges : List (OriginalEdge K)) (edge : OriginalEdge K) :
    ((edges ++ [edge]).map fun e =>
        groupIndex (keyOf mergeClass) (edges ++ [edge]) (keyOf mergeClass e)) =
      (edges.map fun e => groupIndex (keyOf mergeClass) edges (keyOf mergeClass e)) ++
        [groupIndex (keyOf mergeClass) (edges ++ [edge]) (keyOf mergeClass edge)] := by
  rw [map_append, map_singleton]
  congr 1
  exact map_congr_left fun e he =>
    groupIndex_concat _ ((mem_firstKeys _).mpr ⟨e, he, rfl⟩) edge

theorem Groups.add_old (hgroups : Groups mergeClass edges merging)
    (hold : keyOf mergeClass edge ∈ firstKeys (keyOf mergeClass) edges) :
    Groups mergeClass (edges ++ [edge]) (add mergeClass merging edge) := by
  obtain ⟨best, -, hbest⟩ := exists_combined_elected mergeClass hold
  have hseen : merging.seen.lookup (keyOf mergeClass edge) =
      some (groupIndex (keyOf mergeClass) edges (keyOf mergeClass edge),
        best.hyperedge.probability) := by
    rw [hgroups.seen, hbest]
    rfl
  have helected : (combined mergeClass (edges ++ [edge]) (keyOf mergeClass edge)).2 =
      if best.hyperedge.probability < edge.hyperedge.probability then
        some (edge, edge.hyperedge.probability)
      else some (best, best.hyperedge.probability) := by
    rw [combined_concat_self, hbest]
    rfl
  have hindex := groupIndex_concat _ hold edge
  rw [add_of_seen hseen]
  refine ⟨fun key => ?_, ?_, ?_, ?_, ?_, ?_⟩
  · by_cases hkey : key = keyOf mergeClass edge
    · subst hkey
      rw [helected, hindex]
      split
      · exact AList.lookup_insert _
      · exact hseen
    · rw [seen_concat_ne hkey, ← hgroups.seen]
      split
      · exact AList.lookup_insert_ne hkey
      · rfl
  · rw [hgroups.hyperedges]
    refine (map_firstKeys_concat_of_mem _ hold ?_ fun key hne => ?_).symm
    · rw [combined_concat_self]
    · rw [combined_concat_ne mergeClass hne]
  · rw [hgroups.logicalFlips, firstKeys_concat, if_pos hold]
  · split
    · rename_i hless
      rw [map_set, hgroups.representatives, set_eq_modify]
      refine (map_firstKeys_concat_of_mem _ hold ?_ fun key hne => ?_).symm
      · rw [helected, if_pos hless]
        rfl
      · rw [combined_concat_ne mergeClass hne]
    · rename_i hless
      rw [hgroups.representatives, firstKeys_concat, if_pos hold]
      refine map_congr_left fun key _ => ?_
      by_cases hkey : key = keyOf mergeClass edge
      · rw [hkey, helected, if_neg hless, hbest]
      · rw [combined_concat_ne mergeClass hkey]
  · rw [hgroups.decoderEdgeOfOriginal, decoderEdges_concat, hindex]
  · rw [hgroups.originalEdgesOfDecoder]
    refine (map_firstKeys_concat_of_mem _ hold ?_ fun key hne => ?_).symm
    · rw [members_concat_self, map_append, map_singleton]
    · rw [members_concat_ne _ hne]

theorem Groups.add_new (hgroups : Groups mergeClass edges merging)
    (hfresh : keyOf mergeClass edge ∉ firstKeys (keyOf mergeClass) edges) :
    Groups mergeClass (edges ++ [edge]) (add mergeClass merging edge) := by
  have hnone := combined_eq_of_notMem mergeClass hfresh
  have hseen : merging.seen.lookup (keyOf mergeClass edge) = none := by
    rw [hgroups.seen, hnone]
    rfl
  have hcombined : combined mergeClass (edges ++ [edge]) (keyOf mergeClass edge) =
      (edge.hyperedge.probability, some (edge, edge.hyperedge.probability)) := by
    rw [combined_concat_self, hnone, exclusiveProbabilityOf_zero]
    rfl
  have hindex : groupIndex (keyOf mergeClass) (edges ++ [edge]) (keyOf mergeClass edge) =
      merging.representatives.length := by
    rw [groupIndex_concat_self _ hfresh, hgroups.length_representatives]
  rw [add_of_not_seen hseen]
  refine ⟨fun key => ?_, ?_, ?_, ?_, ?_, ?_⟩
  · by_cases hkey : key = keyOf mergeClass edge
    · subst hkey
      rw [hcombined, hindex]
      exact AList.lookup_insert _
    · rw [seen_concat_ne hkey, ← hgroups.seen]
      exact AList.lookup_insert_ne hkey
  · rw [hgroups.hyperedges, map_firstKeys_concat_of_notMem _ hfresh fun key hne => ?_]
    · rw [hcombined]
    · rw [combined_concat_ne mergeClass hne]
  · rw [hgroups.logicalFlips, firstKeys_concat, if_neg hfresh, map_append, map_singleton]
  · rw [map_append, map_singleton, hgroups.representatives,
      map_firstKeys_concat_of_notMem _ hfresh fun key hne => ?_]
    · rw [hcombined]
      rfl
    · rw [combined_concat_ne mergeClass hne]
  · rw [hgroups.decoderEdgeOfOriginal, decoderEdges_concat, hindex]
  · rw [hgroups.originalEdgesOfDecoder, map_firstKeys_concat_of_notMem _ hfresh fun key hne => ?_]
    · rw [members_concat_self, members_eq_nil _ hfresh]
      rfl
    · rw [members_concat_ne _ hne]

theorem groups_addAll (edges : List (OriginalEdge K)) :
    Groups mergeClass edges (addAll mergeClass edges) := by
  induction edges using List.reverseRecOn with
  | nil => exact groups_empty mergeClass
  | append_singleton edges edge ih =>
    rw [addAll, foldl_append]
    by_cases hkey : keyOf mergeClass edge ∈ firstKeys (keyOf mergeClass) edges
    · exact ih.add_old hkey
    · exact ih.add_new hkey

end Merging

end QdkEc
