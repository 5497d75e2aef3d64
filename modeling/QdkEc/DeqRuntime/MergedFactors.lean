import QdkEc.DeqRuntime.ShotProjection

/-!
# Parity factors of merged graphs

This module proves that merging loses nothing: decoder edges are the classes of original
edges that look the same, their probabilities are those of an odd number of events, and
the original edges that represent a set of decoder edges have its syndrome and its
logical flips.
-/

namespace QdkEc

open Grouping List Merging

section Odd

variable {K : Type} [CommRing K]

/-- The probability that an odd number of independent events happens. -/
def oddProbability (p : ℕ → K) (events : Finset ℕ) : K :=
  ∑ happened ∈ events.powerset with Odd happened.card,
    (∏ i ∈ happened, p i) * ∏ i ∈ events \ happened, (1 - p i)

theorem one_sub_oddProbability (p : ℕ → K) (events : Finset ℕ) :
    1 - ((2 : ℕ) : K) * oddProbability p events = ∏ i ∈ events, (1 - ((2 : ℕ) : K) * p i) := by
  push_cast
  have hone : (1 : K) = ∑ happened ∈ events.powerset,
      (∏ i ∈ happened, p i) * ∏ i ∈ events \ happened, (1 - p i) := by
    rw [← Finset.prod_add]
    simp
  have hbias : ∏ i ∈ events, (1 - 2 * p i) = ∏ i ∈ events, (-p i + (1 - p i)) :=
    Finset.prod_congr rfl fun i _ => by ring
  rw [hbias, Finset.prod_add, oddProbability, Finset.sum_filter, Finset.mul_sum]
  nth_rewrite 1 [hone]
  rw [← Finset.sum_sub_distrib]
  refine Finset.sum_congr rfl fun happened _ => ?_
  rw [Finset.prod_neg]
  split_ifs with hodd
  · rw [hodd.neg_one_pow]
    ring
  · rw [(Nat.not_odd_iff_even.mp hodd).neg_one_pow]
    ring

theorem one_sub_foldl_exclusive (p : K) (values : List K) :
    1 - ((2 : ℕ) : K) * values.foldl exclusiveProbabilityOf p =
      (1 - ((2 : ℕ) : K) * p) * (values.map fun value => 1 - ((2 : ℕ) : K) * value).prod := by
  induction values generalizing p with
  | nil => simp
  | cons value values ih =>
    rw [foldl_cons, ih, map_cons, prod_cons, exclusiveProbabilityOf]
    ring

end Odd

section Combine

variable {K ι : Type} [Field K] [LinearOrder K] {p : ℕ → K} {entries : List (ι × K)}

omit [LinearOrder K] in
theorem foldl_exclusive_eq [CharZero K] {events : List ℕ} (h : events.Nodup) :
    (events.map p).foldl exclusiveProbabilityOf 0 = oddProbability p events.toFinset := by
  have hfold := one_sub_foldl_exclusive 0 (events.map p)
  rw [map_map, ← prod_toFinset _ h] at hfold
  have hodd := one_sub_oddProbability p events.toFinset
  simp only [Function.comp_def, mul_zero, sub_zero, one_mul] at hfold
  rw [← hfold] at hodd
  exact mul_left_cancel₀ two_ne_zero (sub_right_injective hodd).symm

theorem fst_combine (entries : List (ι × K)) :
    (combine entries).1 = (entries.map Prod.snd).foldl exclusiveProbabilityOf 0 := by
  induction entries using List.reverseRecOn with
  | nil => rfl
  | append_singleton entries entry ih =>
    rw [combine_concat, map_append, foldl_append, ih]
    rfl

theorem exists_first_of_combine {best : ι × K} (h : (combine entries).2 = some best) :
    ∃ before after, entries = before ++ best :: after ∧ (∀ entry ∈ before, entry.2 < best.2) ∧
      ∀ entry ∈ after, entry.2 ≤ best.2 := by
  induction entries using List.reverseRecOn generalizing best with
  | nil => cases h
  | append_singleton entries last ih =>
    rw [combine_concat] at h
    cases hold : (combine entries).2 with
    | none =>
      obtain rfl : last = best := by simpa [hold, elect] using h
      obtain rfl : entries = [] := by
        by_contra hne
        obtain ⟨_, -, hsome⟩ := exists_elected hne
        rw [hold] at hsome
        cases hsome
      exact ⟨[], [], rfl, by simp, by simp⟩
    | some old =>
      obtain ⟨before, after, rfl, hbefore, hafter⟩ := ih hold
      rw [hold, elect, Option.elim_some] at h
      split_ifs at h with hless
      · obtain rfl := Option.some_inj.mp h
        refine ⟨before ++ old :: after, [], rfl, fun entry hentry => ?_, by simp⟩
        obtain hentry | hentry := mem_append.mp hentry
        · exact (hbefore entry hentry).trans hless
        · obtain rfl | hentry := mem_cons.mp hentry
          · exact hless
          · exact (hafter entry hentry).trans_lt hless
      · obtain rfl := Option.some_inj.mp h
        refine ⟨before, after ++ [last], by simp, hbefore, fun entry hentry => ?_⟩
        obtain hentry | hentry := mem_append.mp hentry
        · exact hafter entry hentry
        · obtain rfl := mem_singleton.mp hentry
          exact not_lt.mp hless

end Combine

theorem mem_sortIndices {l : List ℕ} {i : ℕ} : i ∈ sortIndices l ↔ i ∈ l :=
  (perm_insertionSort _ l).mem_iff

theorem sortIndices_eq_iff {l l' : List ℕ} : sortIndices l = sortIndices l' ↔ l.Perm l' := by
  constructor
  · intro h
    exact ((perm_insertionSort _ l).symm.trans (.of_eq h)).trans (perm_insertionSort _ l')
  · intro h
    refine List.Perm.eq_of_pairwise' (pairwise_insertionSort (· ≤ ·) l)
      (pairwise_insertionSort (· ≤ ·) l') ?_
    exact (perm_insertionSort _ l).trans (h.trans (perm_insertionSort _ l').symm)

theorem sortedLT_destutter (l : List ℕ) : ((sortIndices l).destutter (· ≠ ·)).SortedLT := by
  have hle : ((sortIndices l).destutter (· ≠ ·)).Pairwise (· ≤ ·) :=
    (pairwise_insertionSort (· ≤ ·) l).sublist (destutter_sublist _ _)
  have hne := isChain_destutter (· ≠ ·) (sortIndices l)
  rw [sortedLT_iff_isChain, isChain_iff_getElem]
  rw [isChain_iff_getElem] at hne
  intro i hi
  exact lt_of_le_of_ne (pairwise_iff_getElem.mp hle i (i + 1) _ _ (Nat.lt_succ_self i))
    (hne i hi)

theorem destutter_eq_iff {l l' : List ℕ} :
    (sortIndices l).destutter (· ≠ ·) = (sortIndices l').destutter (· ≠ ·) ↔
      l.toFinset = l'.toFinset := by
  constructor
  · intro h
    ext i
    rw [mem_toFinset, mem_toFinset, ← mem_sortIndices (l := l), ← mem_sortIndices (l := l'),
      ← mem_destutter_ne, h, mem_destutter_ne]
  · intro h
    refine (sortedLT_destutter l).eq_of_mem_iff (sortedLT_destutter l') fun i => ?_
    rw [mem_destutter_ne, mem_destutter_ne, mem_sortIndices, mem_sortIndices, ← mem_toFinset, h,
      mem_toFinset]

section Merge

variable {K : Type} [Field K] [LinearOrder K]

/-- Two original edges have the same vertices, flips, observable flips and class. -/
def LooksLike (mergeClass : ErrorIndex → ℕ) (edge edge' : OriginalEdge K) : Prop :=
  edge.hyperedge.vertices.toFinset = edge'.hyperedge.vertices.toFinset ∧
    edge.flips.toFinset = edge'.flips.toFinset ∧
      edge.hyperedge.observableFlips.map (fun flips => (flips : Multiset ℕ)) =
        edge'.hyperedge.observableFlips.map (fun flips => (flips : Multiset ℕ)) ∧
          mergeClass edge.error = mergeClass edge'.error

omit [Field K] [LinearOrder K] in
theorem keyOf_eq_iff {mergeClass : ErrorIndex → ℕ} {edge edge' : OriginalEdge K}
    (h : edge.hyperedge.vertices.Nodup) (h' : edge'.hyperedge.vertices.Nodup) :
    Merging.keyOf mergeClass edge = Merging.keyOf mergeClass edge' ↔
      LooksLike mergeClass edge edge' := by
  simp only [Merging.keyOf, Prod.mk.injEq, LooksLike, destutter_eq_iff, sortIndices_eq_iff]
  refine and_congr ⟨fun hperm => toFinset_eq_of_perm _ _ hperm,
    perm_of_nodup_nodup_toFinset_eq h h'⟩ (and_congr_right fun _ => and_congr_left fun _ => ?_)
  cases edge.hyperedge.observableFlips <;> cases edge'.hyperedge.observableFlips <;>
    simp [sortIndices_eq_iff]

/-- The edges of a set at a vertex are odd in number. -/
def syndromeOf (hyperedges : List (Hyperedge K)) (factor : Finset ℕ) (vertex : ℕ) : Prop :=
  Odd {i ∈ factor | vertex ∈ (hyperedges[i]?).elim [] Hyperedge.vertices}.card

/-- The edges of a set that flip a target are odd in number. -/
def logicalBit (logicalFlips : List (List ℕ)) (factor : Finset ℕ) (target : ℕ) : Prop :=
  Odd {i ∈ factor | target ∈ logicalFlips.getD i []}.card

def edgeProbability (hypergraph : DecodingHypergraph K) (i : ℕ) : K :=
  (hypergraph.hyperedges[i]?).elim 0 Hyperedge.probability

/-- A merge loses nothing. -/
structure IsLossless (hypergraph : DecodingHypergraph K) (errors : List ErrorIndex)
    (logicalFlips : List (List ℕ)) (mergeClass : ErrorIndex → ℕ)
    (prepared : PreparedDecoderInput K) (decoderEdgeOf : List ℕ) (originalsOf : List (List ℕ)) :
    Prop where
  partition : ∀ (i j : ℕ) (edge edge' : OriginalEdge K),
    (Merging.originalEdges hypergraph errors logicalFlips)[i]? = some edge →
      (Merging.originalEdges hypergraph errors logicalFlips)[j]? = some edge' →
        (decoderEdgeOf[i]? = decoderEdgeOf[j]? ↔ LooksLike mergeClass edge edge')
  inverse : ∀ i d : ℕ, decoderEdgeOf[i]? = some d ↔ i ∈ originalsOf.getD d []
  total : decoderEdgeOf.length = hypergraph.hyperedges.length
  nonempty : ∀ originals ∈ originalsOf, originals ≠ []
  probability : ∀ (d : ℕ) (originals : List ℕ), originalsOf[d]? = some originals →
    (prepared.hypergraph.hyperedges[d]?).map Hyperedge.probability =
      some (oddProbability (edgeProbability hypergraph) originals.toFinset)
  lengths : prepared.hypergraph.hyperedges.length = originalsOf.length ∧
    prepared.representatives.length = originalsOf.length ∧
      prepared.logicalFlips.length = originalsOf.length
  representatives : ∃ representative : ℕ → ℕ,
    (∀ (d : ℕ) (originals : List ℕ), originalsOf[d]? = some originals →
      representative d ∈ originals ∧
        prepared.representatives[d]? = errors[representative d]? ∧
          ∀ i ∈ originals, edgeProbability hypergraph i ≤
              edgeProbability hypergraph (representative d) ∧
            (i < representative d → edgeProbability hypergraph i <
              edgeProbability hypergraph (representative d))) ∧
    ∀ factor ⊆ Finset.range originalsOf.length,
      (∀ vertex, syndromeOf hypergraph.hyperedges (factor.image representative) vertex ↔
        syndromeOf prepared.hypergraph.hyperedges factor vertex) ∧
      ∀ target, logicalBit logicalFlips (factor.image representative) target ↔
        logicalBit prepared.logicalFlips factor target

namespace Merging

/-- The original edge that represents a decoder edge. -/
def representative (mergeClass : ErrorIndex → ℕ) (edges : List (OriginalEdge K)) (d : ℕ) : ℕ :=
  ((firstKeys (keyOf mergeClass) edges)[d]?.bind fun key =>
    (combined mergeClass edges key).2).elim 0
    fun best => best.1.position

theorem Groups.exists_first_representative {mergeClass : ErrorIndex → ℕ}
    {edges : List (OriginalEdge K)} {merging : Merging K} (h : Groups mergeClass edges merging)
    (hpositions : edges.Pairwise fun edge edge' => edge.position < edge'.position) {d : ℕ}
    {key : MergeKey} (hkey : (firstKeys (keyOf mergeClass) edges)[d]? = some key) :
    ∃ best ∈ members (keyOf mergeClass) edges key,
      representative mergeClass edges d = best.position ∧
        merging.representatives[d]? = some best.error ∧
          ∀ edge ∈ members (keyOf mergeClass) edges key,
            edge.hyperedge.probability ≤ best.hyperedge.probability ∧
              (edge.position < best.position →
                edge.hyperedge.probability < best.hyperedge.probability) := by
  obtain ⟨best, -, hbest, herror⟩ := h.exists_representative hkey
  have hcombined := hbest
  rw [combined] at hcombined
  obtain ⟨before, after, hsplit, hbefore, hafter⟩ := exists_first_of_combine hcombined
  obtain ⟨before, rest, hmembers, rfl, hrest⟩ := map_eq_append_iff.mp hsplit
  obtain ⟨best', after, rfl, heq, rfl⟩ := map_eq_cons_iff.mp hrest
  obtain rfl : best' = best := (Prod.mk.inj heq).1
  have hafter' : ∀ edge ∈ after, best'.position < edge.position := by
    have hsorted := hpositions.sublist
      (filter_sublist (p := fun edge => keyOf mergeClass edge = key))
    change (members (keyOf mergeClass) edges key).Pairwise _ at hsorted
    rw [hmembers] at hsorted
    exact (pairwise_cons.mp (pairwise_append.mp hsorted).2.1).1
  refine ⟨best', by simp [hmembers],
    by rw [representative, hkey, Option.bind_some, hbest, Option.elim_some], herror, ?_⟩
  intro edge hedge
  rw [hmembers] at hedge
  obtain hedge | hedge := mem_append.mp hedge
  · have hless := hbefore (edge, _) (mem_map_of_mem hedge)
    exact ⟨hless.le, fun _ => hless⟩
  · obtain rfl | hedge := mem_cons.mp hedge
    · exact ⟨le_rfl, fun hlt => absurd hlt (lt_irrefl _)⟩
    · exact ⟨hafter (edge, _) (mem_map_of_mem hedge),
        fun hlt => absurd hlt (hafter' edge hedge).not_gt⟩

variable {hypergraph : DecodingHypergraph K} {errors : List ErrorIndex}
  {logicalFlips : List (List ℕ)} {mergeClass : ErrorIndex → ℕ}

omit [Field K] [LinearOrder K] in
theorem pairwise_position : (originalEdges hypergraph errors logicalFlips).Pairwise
    fun edge edge' => edge.position < edge'.position := by
  rw [← pairwise_map (f := OriginalEdge.position) (R := (· < ·)), originalEdges, map_map]
  exact zipIdx_map_snd _ _ ▸ pairwise_lt_range'

omit [Field K] [LinearOrder K] in
theorem of_getElem?_originalEdges {i : ℕ} {edge : OriginalEdge K}
    (h : (originalEdges hypergraph errors logicalFlips)[i]? = some edge) :
    edge.position = i ∧ hypergraph.hyperedges[i]? = some edge.hyperedge ∧
      errors[i]? = some edge.error ∧ logicalFlips[i]? = some edge.flips := by
  rw [getElem?_originalEdges] at h
  obtain ⟨entry, hentry, rfl⟩ := Option.map_eq_some_iff.mp h
  obtain ⟨hleft, hflips⟩ := getElem?_zip_eq_some.mp hentry
  obtain ⟨hhyperedge, herror⟩ := getElem?_zip_eq_some.mp hleft
  exact ⟨rfl, hhyperedge, herror, hflips⟩

end Merging

theorem odd_card_image_iff {factor : Finset ℕ} {representative : ℕ → ℕ} {P Q : ℕ → Prop}
    [DecidablePred P] [DecidablePred Q] (hinj : Set.InjOn representative factor)
    (h : ∀ d ∈ factor, P (representative d) ↔ Q d) :
    Odd {i ∈ factor.image representative | P i}.card ↔ Odd {d ∈ factor | Q d}.card := by
  rw [Finset.filter_image, Finset.card_image_of_injOn
    (hinj.mono fun d hd => (Finset.mem_filter.mp hd).1),
    Finset.filter_congr h]

variable [IsStrictOrderedRing K]

/-- Merging edges with one syndrome loses nothing. -/
theorem deduplicateBySyndrome_isLossless (hypergraph : DecodingHypergraph K)
    (errors : List ErrorIndex) (logicalFlips : List (List ℕ)) (mergeClass : ErrorIndex → ℕ)
    (hvertices : ∀ hyperedge ∈ hypergraph.hyperedges, hyperedge.vertices.Nodup)
    (herrors : hypergraph.hyperedges.length = errors.length)
    (hflips : hypergraph.hyperedges.length = logicalFlips.length) :
    ∃ prepared decoderEdgeOf originalsOf,
      deduplicateBySyndrome hypergraph errors logicalFlips mergeClass =
        (prepared, .merged decoderEdgeOf originalsOf) ∧
      IsLossless hypergraph errors logicalFlips mergeClass prepared decoderEdgeOf originalsOf := by
  refine ⟨_, _, _, rfl, ?_⟩
  set edges := originalEdges hypergraph errors logicalFlips with hedges
  have hgroups : Merging.Groups mergeClass edges (addAll mergeClass edges) :=
    groups_addAll edges
  have hlength : edges.length = hypergraph.hyperedges.length :=
    length_originalEdges herrors hflips
  have hinverse : ∀ i d : ℕ, (addAll mergeClass edges).decoderEdgeOfOriginal[i]? = some d ↔
      i ∈ (addAll mergeClass edges).originalEdgesOfDecoder.getD d [] := by
    intro i d
    rw [hgroups.decoderEdgeOfOriginal, hgroups.originalEdgesOfDecoder, getElem?_map,
      getD_eq_getElem?_getD, getElem?_map, Option.map_eq_some_iff]
    constructor
    · rintro ⟨edge, hedge, rfl⟩
      have hmem := mem_of_getElem? hedge
      rw [getElem?_groupIndex _ hmem, Option.map_some, Option.getD_some]
      exact mem_map.mpr ⟨edge, mem_filter.mpr ⟨hmem, by simp⟩, (of_getElem?_originalEdges hedge).1⟩
    · intro hi
      cases hkey : (firstKeys (keyOf mergeClass) edges)[d]? with
      | none => simp [hkey] at hi
      | some key =>
        rw [hkey, Option.map_some, Option.getD_some] at hi
        obtain ⟨edge, hedge, rfl⟩ := mem_map.mp hi
        obtain ⟨hmem, hedgeKey⟩ := mem_filter.mp hedge
        refine ⟨edge, (of_mem_originalEdges hmem).1, ?_⟩
        rw [of_decide_eq_true hedgeKey, groupIndex_eq _ hkey]
  have hprobability : ∀ edge ∈ edges,
      edgeProbability hypergraph edge.position = edge.hyperedge.probability := by
    intro edge hedge
    simp [edgeProbability, (of_mem_originalEdges hedge).2.1]
  refine {
    partition := fun i j edge edge' hi hj => ?_
    inverse := hinverse
    total := by simp [hgroups.decoderEdgeOfOriginal, hlength]
    nonempty := fun originals horiginals => ?_
    probability := fun d originals horiginals => ?_
    lengths := ?_
    representatives := ⟨representative mergeClass edges, fun d originals horiginals => ?_,
      fun factor hfactor => ?_⟩ }
  · rw [← keyOf_eq_iff (hvertices _ (mem_of_getElem? (of_getElem?_originalEdges hi).2.1))
      (hvertices _ (mem_of_getElem? (of_getElem?_originalEdges hj).2.1)),
      hgroups.getElem?_decoderEdgeOfOriginal hi, hgroups.getElem?_decoderEdgeOfOriginal hj,
      Option.some_inj, groupIndex_inj _ (mem_of_getElem? hi)]
  · rw [hgroups.originalEdgesOfDecoder] at horiginals
    obtain ⟨key, hkey, rfl⟩ := mem_map.mp horiginals
    simpa using members_ne_nil _ hkey
  · rw [hgroups.originalEdgesOfDecoder, getElem?_map] at horiginals
    obtain ⟨key, hkey, rfl⟩ := Option.map_eq_some_iff.mp horiginals
    have hprobabilities : (members (keyOf mergeClass) edges key).map
        (fun edge => edge.hyperedge.probability) =
          ((members (keyOf mergeClass) edges key).map OriginalEdge.position).map
            (edgeProbability hypergraph) := by
      rw [map_map]
      exact map_congr_left fun edge hedge =>
        (hprobability edge (mem_of_mem_filter hedge)).symm
    have hnodup : ((members (keyOf mergeClass) edges key).map
        OriginalEdge.position).Nodup := by
      refine List.Pairwise.map _ (fun _ _ => ne_of_lt) ?_
      exact pairwise_position.sublist filter_sublist
    rw [hgroups.getElem?_hyperedges, hkey, Option.map_some, Option.map_some, combined,
      fst_combine, map_map]
    exact congrArg some ((congrArg (List.foldl exclusiveProbabilityOf 0) hprobabilities).trans
      (foldl_exclusive_eq hnodup))
  · simp [hgroups.hyperedges, hgroups.originalEdgesOfDecoder, hgroups.logicalFlips,
      hgroups.length_representatives]
  · rw [hgroups.originalEdgesOfDecoder, getElem?_map] at horiginals
    obtain ⟨key, hkey, rfl⟩ := Option.map_eq_some_iff.mp horiginals
    obtain ⟨best, hbest, hrepresentative, herror, hfirst⟩ :=
      hgroups.exists_first_representative pairwise_position hkey
    rw [hrepresentative]
    refine ⟨mem_map_of_mem hbest, ?_, fun i hi => ?_⟩
    · rw [(of_mem_originalEdges (mem_of_mem_filter hbest)).2.2]
      exact herror
    · obtain ⟨edge, hmem, rfl⟩ := mem_map.mp hi
      rw [hprobability edge (mem_of_mem_filter hmem), hprobability best (mem_of_mem_filter hbest)]
      exact hfirst edge hmem
  · have hbest : ∀ d ∈ factor, ∃ best ∈ edges,
        (firstKeys (keyOf mergeClass) edges)[d]? = some (keyOf mergeClass best) ∧
          representative mergeClass edges d = best.position := by
      intro d hd
      have hlt := Finset.mem_range.mp (hfactor hd)
      rw [hgroups.originalEdgesOfDecoder, length_map] at hlt
      obtain ⟨best, hmem, hrepresentative, -⟩ := hgroups.exists_first_representative
        pairwise_position (getElem?_eq_getElem hlt)
      obtain ⟨hedge, hkey⟩ := mem_filter.mp hmem
      exact ⟨best, hedge, by rw [getElem?_eq_getElem hlt, of_decide_eq_true hkey], hrepresentative⟩
    have hinjective : Set.InjOn (representative mergeClass edges) factor := by
      intro d hd d' hd' heq
      obtain ⟨best, hmem, hkey, hrepresentative⟩ := hbest d hd
      obtain ⟨best', hmem', hkey', hrepresentative'⟩ := hbest d' hd'
      have hsame : edges[best.position]? = edges[best'.position]? := by
        rw [← hrepresentative, ← hrepresentative', heq]
      rw [(of_mem_originalEdges hmem).1, (of_mem_originalEdges hmem').1, Option.some_inj] at hsame
      rw [← groupIndex_eq _ hkey, ← groupIndex_eq _ hkey', hsame]
    refine ⟨fun vertex => odd_card_image_iff hinjective fun d hd => ?_,
      fun target => odd_card_image_iff hinjective fun d hd => ?_⟩
    · obtain ⟨best, hmem, hkey, hrepresentative⟩ := hbest d hd
      rw [hrepresentative, (of_mem_originalEdges hmem).2.1, hgroups.getElem?_hyperedges, hkey]
      exact mem_sortIndices.symm
    · obtain ⟨best, hmem, hkey, hrepresentative⟩ := hbest d hd
      have hget := of_getElem?_originalEdges (of_mem_originalEdges hmem).1
      rw [hrepresentative, getD_eq_getElem?_getD, hget.2.2.2, hgroups.logicalFlips,
        getD_eq_getElem?_getD, getElem?_map, hkey]
      exact (mem_destutter_ne.trans mem_sortIndices).symm

end Merge

/-- Two edges between the same vertices and one more. -/
def sampleGraph : DecodingHypergraph ℚ :=
  ⟨2, [⟨[0, 1], 1 / 4, none⟩, ⟨[1, 0], 1 / 2, none⟩, ⟨[1], 1 / 8, none⟩]⟩

theorem deduplicateBySyndrome_isLossless_sampleGraph : ∃ prepared decoderEdgeOf originalsOf,
      deduplicateBySyndrome sampleGraph [⟨0, 0⟩, ⟨0, 1⟩, ⟨1, 0⟩] [[3], [3], []] (fun _ => 0) =
        (prepared, .merged decoderEdgeOf originalsOf) ∧
      IsLossless sampleGraph [⟨0, 0⟩, ⟨0, 1⟩, ⟨1, 0⟩] [[3], [3], []] (fun _ => 0) prepared
        decoderEdgeOf originalsOf :=
  deduplicateBySyndrome_isLossless sampleGraph _ _ _ (by decide) rfl rfl

end QdkEc
