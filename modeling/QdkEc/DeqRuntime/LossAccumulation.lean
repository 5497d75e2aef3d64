import QdkEc.DeqRuntime.LossHandler

/-!
# Accumulated losses

This module proves what the recursion over the parents of loss sites computes when no site
comes before itself: the probability that a loss happened at a site or at one before it.
The survival probabilities are products over the parents, so that they do not depend on
the order of the sites, and neither do the probabilities of the edges that are activated.
-/

namespace QdkEc

open List

section Graph

variable {K : Type} (sites : List (LossSite K))

/-- How often a site is a child of another one. -/
def childCount (parent child : ℕ) : ℕ :=
  (sites[parent]?).elim 0 fun site => site.children.count child

/-- The parents of a site, in order. -/
def parents (child : ℕ) : List ℕ :=
  (List.range sites.length).flatMap fun parent =>
    List.replicate (childCount sites parent child) parent

/-- A site is a child of another one. -/
def IsChild (parent child : ℕ) : Prop :=
  child < sites.length ∧ 0 < childCount sites parent child

/-- No site comes before itself. -/
def Acyclic : Prop :=
  ∀ i, ¬ Relation.TransGen (IsChild sites) i i

def siteProbability [Zero K] (i : ℕ) : K :=
  (sites[i]?).elim 0 LossSite.probability

variable {sites}

theorem IsChild.lt {parent child : ℕ} (h : IsChild sites parent child) : parent < sites.length := by
  by_contra hparent
  have := h.2
  rw [childCount, getElem?_eq_none (not_lt.mp hparent)] at this
  exact lt_irrefl 0 this

theorem mem_parents {parent child : ℕ} (hchild : child < sites.length) :
    parent ∈ parents sites child ↔ IsChild sites parent child := by
  simp only [parents, mem_flatMap, mem_range, mem_replicate]
  constructor
  · rintro ⟨_, -, hne, rfl⟩
    exact ⟨hchild, Nat.pos_of_ne_zero hne⟩
  · intro h
    exact ⟨parent, h.lt, h.2.ne', rfl⟩

theorem getElem?_foldl_modify (children : List ℕ) (lists : List (List ℕ)) (i child : ℕ) :
    (children.foldl (fun lists child => lists.modify child (· ++ [i])) lists)[child]? =
      lists[child]?.map (· ++ List.replicate (children.count child) i) := by
  induction children generalizing lists with
  | nil => simp
  | cons head children ih =>
    rw [foldl_cons, ih, getElem?_modify]
    by_cases h : head = child
    · subst h
      simp [replicate_succ, Function.comp_def]
    · simp [h]

theorem getElem?_parentsOf {child : ℕ} (h : child < sites.length) :
    (parentsOf sites)[child]? = some (parents sites child) := by
  have hfold : ∀ (sites : List (LossSite K)) (lists : List (List ℕ)),
      (sites.zipIdx.foldl (fun parents site => site.1.children.foldl
        (fun parents child => parents.modify child (· ++ [site.2])) parents) lists)[child]? =
          lists[child]?.map (· ++ parents sites child) := by
    intro sites lists
    induction sites using List.reverseRecOn with
    | nil => simp [parents]
    | append_singleton sites site ih =>
      have hparents : parents (sites ++ [site]) child =
          parents sites child ++ List.replicate (site.children.count child) sites.length := by
        rw [parents, length_append, length_singleton, range_succ, flatMap_append]
        congr 1
        · refine flatMap_congr fun parent hparent => ?_
          rw [childCount, childCount, getElem?_append_left (mem_range.mp hparent)]
        · simp [childCount]
      rw [zipIdx_append, foldl_append, hparents]
      simp only [zipIdx_cons, zipIdx_nil, foldl_cons, foldl_nil, zero_add,
        getElem?_foldl_modify, ih, Option.map_map]
      simp [Function.comp_def]
  rw [parentsOf, hfold, getElem?_replicate_of_lt h]
  rfl

theorem Acyclic.wellFounded (h : Acyclic sites) : WellFounded (IsChild sites) := by
  let before (i j : Fin sites.length) : Prop := Relation.TransGen (IsChild sites) i j
  have : Std.Irrefl before := ⟨fun i => h i⟩
  have hwf : WellFounded before := Finite.wellFounded_of_trans_of_irrefl _
  have hacc : ∀ i : Fin sites.length, Acc (IsChild sites) i := by
    intro i
    induction i using hwf.induction with
    | _ i ih => exact ⟨_, fun j hj => ih ⟨j, hj.lt⟩ (.single hj)⟩
  exact ⟨fun i => ⟨_, fun j hj => hacc ⟨j, hj.lt⟩⟩⟩

end Graph

section Survival

variable {K : Type} [CommRing K] {sites : List (LossSite K)}

/-- The probabilities that no loss happened at a site or before it. -/
def IsSurvival (sites : List (LossSite K)) (survival : ℕ → K) : Prop :=
  ∀ i < sites.length, survival i = (1 - siteProbability sites i) *
    ∏ j ∈ Finset.range sites.length, survival j ^ childCount sites j i

theorem Acyclic.exists_isSurvival (h : Acyclic sites) : ∃ survival, IsSurvival sites survival := by
  classical
  refine ⟨h.wellFounded.fix fun i before => (1 - siteProbability sites i) *
    ∏ j ∈ Finset.range sites.length,
      if hj : IsChild sites j i then before j hj ^ childCount sites j i else 1, fun i hi => ?_⟩
  rw [h.wellFounded.fix_eq]
  refine congrArg _ (Finset.prod_congr rfl fun j _ => ?_)
  split_ifs with hj
  · rfl
  · rw [Nat.eq_zero_of_not_pos fun hpos => hj ⟨hi, hpos⟩, pow_zero]

theorem prod_map_parents (survival : ℕ → K) (i : ℕ) : ((parents sites i).map survival).prod =
      ∏ j ∈ Finset.range sites.length, survival j ^ childCount sites j i := by
  rw [parents]
  induction sites.length with
  | zero => rfl
  | succ n ih =>
    rw [range_succ, flatMap_append, map_append, prod_append, ih, Finset.prod_range_succ]
    simp

theorem one_sub_foldl_union (total : K) (values : List K) :
    1 - values.foldl unionProbabilityOf total = (1 - total) * (values.map (1 - ·)).prod := by
  induction values generalizing total with
  | nil => simp
  | cons value values ih =>
    rw [foldl_cons, ih, map_cons, prod_cons, unionProbabilityOf]
    ring

/-- The values that are stored are right. -/
structure Memo (sites : List (LossSite K)) (survival : ℕ → K) (accumulated : List (Option K)) :
    Prop where
  length : accumulated.length = sites.length
  value : ∀ i v, accumulated[i]? = some (some v) → v = 1 - survival i

/-- What is stored is not changed. -/
def Keeps (accumulated later : List (Option K)) : Prop :=
  ∀ (i : ℕ) (v : K), accumulated[i]? = some (some v) → later[i]? = some (some v)

/-- A call returns the probability of a loss at a site or before it, and stores it. -/
def Accumulates (sites : List (LossSite K)) (survival : ℕ → K) (accumulated : List (Option K))
    (i : ℕ) (result : K × List (Option K)) : Prop :=
  result.1 = 1 - survival i ∧ Memo sites survival result.2 ∧ Keeps accumulated result.2 ∧
    result.2[i]? = some (some (1 - survival i))

variable {survival : ℕ → K} {accumulated : List (Option K)} {visiting : List Bool} {i : ℕ}

theorem foldl_accumulateSite {before : List ℕ} (total : K)
    (h : ∀ parent ∈ before, ∀ accumulated, Memo sites survival accumulated →
      Accumulates sites survival accumulated parent
        (accumulateSite sites (parentsOf sites) visiting accumulated parent))
    (hmemo : Memo sites survival accumulated) : ∃ result, before.foldl (fun total parent =>
      let before := accumulateSite sites (parentsOf sites) visiting total.2 parent
      (unionProbabilityOf total.1 before.1, before.2)) (total, accumulated) = result ∧
        result.1 = 1 - (1 - total) * (before.map survival).prod ∧ Memo sites survival result.2 ∧
          Keeps accumulated result.2 := by
  induction before generalizing total accumulated with
  | nil => exact ⟨_, rfl, by simp, hmemo, fun _ _ => id⟩
  | cons parent before ih =>
    obtain ⟨hvalue, hmemo', hkeeps, -⟩ := h parent mem_cons_self accumulated hmemo
    obtain ⟨result, hfold, hrest, hmemo'', hkeeps'⟩ :=
      ih _ (fun other hother => h other (mem_cons_of_mem _ hother)) hmemo'
    refine ⟨result, hfold, hrest.trans ?_, hmemo'', fun i v hv => hkeeps' i v (hkeeps i v hv)⟩
    rw [hvalue, unionProbabilityOf, map_cons, prod_cons]
    ring

theorem accumulateSite_spec (h : Acyclic sites) (hsurvival : IsSurvival sites survival)
    (hi : i < sites.length) (hmemo : Memo sites survival accumulated)
    (hlength : visiting.length = sites.length)
    (hvisiting : ∀ j, visiting[j]? = some true → Relation.TransGen (IsChild sites) i j) :
    Accumulates sites survival accumulated i
      (accumulateSite sites (parentsOf sites) visiting accumulated i) := by
  induction i using h.wellFounded.induction generalizing accumulated visiting with
  | _ i ih =>
    rw [accumulateSite]
    cases hentry : accumulated[i]?.join with
    | some value =>
      have hget : accumulated[i]? = some (some value) := Option.join_eq_some_iff.mp hentry
      have hvalue := hmemo.value i value hget
      exact ⟨hvalue, hmemo, fun _ _ hv => hv, hget.trans (by rw [hvalue])⟩
    | none =>
      have hnew : visiting[i]? = some false := by
        rw [getElem?_eq_getElem (hlength ▸ hi), Option.some_inj, Bool.eq_false_iff]
        intro htrue
        exact h i (hvisiting i (by rw [getElem?_eq_getElem (hlength ▸ hi), htrue]))
      have hparents : ∀ parent ∈ parents sites i, ∀ accumulated,
          Memo sites survival accumulated → Accumulates sites survival accumulated parent
            (accumulateSite sites (parentsOf sites) (visiting.set i true) accumulated
              parent) := by
        intro parent hparent accumulated hmemo
        rw [mem_parents hi] at hparent
        refine ih parent hparent hparent.lt hmemo (by simpa using hlength) fun j hj => ?_
        rw [getElem?_set] at hj
        split_ifs at hj with hij
        · exact .single (hij ▸ hparent)
        · exact .head hparent (hvisiting j hj)
      obtain ⟨result, hfold, htotal, hmemo', hkeeps⟩ :=
        foldl_accumulateSite (siteProbability sites i) hparents hmemo
      rw [prod_map_parents, ← hsurvival i hi] at htotal
      have heq : (if _ : visiting[i]? = some false then
          let total := ((parentsOf sites)[i]?.getD []).foldl (fun total parent =>
            let before := accumulateSite sites (parentsOf sites) (visiting.set i true) total.2
              parent
            (unionProbabilityOf total.1 before.1, before.2))
            (siteProbability sites i, accumulated)
          (total.1, total.2.set i (some total.1))
        else (0, accumulated)) = (result.1, result.2.set i (some result.1)) := by
        rw [dif_pos hnew, getElem?_parentsOf hi, Option.getD_some, hfold]
      refine (congrArg (Accumulates sites survival accumulated i) heq).mpr ?_
      have hlt := hmemo'.length ▸ hi
      refine ⟨htotal, ⟨by simpa using hmemo'.length, fun j v hv => ?_⟩, fun j v hv => ?_, ?_⟩
      · rw [getElem?_set] at hv
        split_ifs at hv with hij
        · simp only [Option.some_inj] at hv
          rw [← hij, ← hv]
          exact htotal
        · exact hmemo'.value j v hv
      · have hne : i ≠ j := by
          rintro rfl
          rw [hv] at hentry
          cases hentry
        rw [getElem?_set_ne hne]
        exact hkeeps j v hv
      · rw [getElem?_set_self hlt]
        exact congrArg (some ∘ some) htotal

theorem foldl_range_accumulateSite (h : Acyclic sites) (hsurvival : IsSurvival sites survival)
    {n : ℕ} (hn : n ≤ sites.length) :
    let result := (List.range n).foldl (fun accumulated index =>
      (accumulateSite sites (parentsOf sites) (List.replicate sites.length false) accumulated
        index).2) (List.replicate sites.length none)
    Memo sites survival result ∧ ∀ i < n, result[i]? = some (some (1 - survival i)) := by
  induction n with
  | zero =>
    refine ⟨⟨length_replicate, fun i v hv => ?_⟩, fun i hi => absurd hi (Nat.not_lt_zero i)⟩
    simp [getElem?_replicate] at hv
  | succ n ih =>
    obtain ⟨hmemo, hdone⟩ := ih (by omega)
    have hfresh : ∀ j, (List.replicate sites.length false)[j]? = some true →
        Relation.TransGen (IsChild sites) n j :=
      fun j hj => by simp [getElem?_replicate] at hj
    obtain ⟨-, hmemo', hkeeps, hlast⟩ := accumulateSite_spec h hsurvival hn hmemo
      length_replicate hfresh
    rw [range_succ, foldl_append, foldl_cons, foldl_nil]
    refine ⟨hmemo', fun i hi => ?_⟩
    obtain hi | rfl := Nat.lt_succ_iff_lt_or_eq.mp hi
    · exact hkeeps i _ (hdone i hi)
    · exact hlast

theorem getElem?_accumulatedSiteProbabilities (h : Acyclic sites)
    (hsurvival : IsSurvival sites survival) (hi : i < sites.length) :
    (accumulatedSiteProbabilities sites)[i]? = some (1 - survival i) := by
  rw [accumulatedSiteProbabilities, getElem?_map,
    (foldl_range_accumulateSite h hsurvival le_rfl).2 i hi]
  rfl

theorem length_accumulatedSiteProbabilities (h : Acyclic sites) :
    (accumulatedSiteProbabilities sites).length = sites.length := by
  obtain ⟨survival, hsurvival⟩ := h.exists_isSurvival
  rw [accumulatedSiteProbabilities, length_map]
  exact (foldl_range_accumulateSite h hsurvival le_rfl).1.length

theorem accumulated_eq_foldl (h : Acyclic sites) (hi : i < sites.length) :
    (accumulatedSiteProbabilities sites)[i]? = some (((parents sites i).map fun parent =>
      (accumulatedSiteProbabilities sites).getD parent 0).foldl unionProbabilityOf
        (siteProbability sites i)) := by
  obtain ⟨survival, hsurvival⟩ := h.exists_isSurvival
  have hparents : ((parents sites i).map fun parent =>
      (accumulatedSiteProbabilities sites).getD parent 0) =
        (parents sites i).map fun parent => 1 - survival parent := by
    refine map_congr_left fun parent hparent => ?_
    rw [getD_eq_getElem?_getD, getElem?_accumulatedSiteProbabilities h hsurvival
      ((mem_parents hi).mp hparent).lt, Option.getD_some]
  have hunion := one_sub_foldl_union (siteProbability sites i)
    ((parents sites i).map fun parent => 1 - survival parent)
  simp only [map_map, Function.comp_def, sub_sub_cancel] at hunion
  rw [show (fun parent => survival parent) = survival from rfl, prod_map_parents,
    ← hsurvival i hi] at hunion
  rw [hparents, getElem?_accumulatedSiteProbabilities h hsurvival hi, ← hunion, sub_sub_cancel]

end Survival

section Raises

variable {K : Type} [Preorder K] {sites raised : List (LossSite K)}

/-- Sites with the same children and higher probabilities. -/
def Raises (sites raised : List (LossSite K)) : Prop :=
  List.Forall₂ (fun site above => above.children = site.children ∧
    site.probability ≤ above.probability) sites raised

theorem Raises.childCount (h : Raises sites raised) : childCount raised = childCount sites := by
  funext j i
  induction h generalizing j with
  | nil => rfl
  | cons hsite _ ih =>
    cases j with
    | zero => simp [QdkEc.childCount, hsite.1]
    | succ j => simpa [QdkEc.childCount] using ih j

theorem Raises.siteProbability_le [Zero K] (h : Raises sites raised) (i : ℕ) :
    siteProbability sites i ≤ siteProbability raised i := by
  induction h generalizing i with
  | nil => exact le_rfl
  | cons hsite _ ih =>
    cases i with
    | zero => simpa [QdkEc.siteProbability] using hsite.2
    | succ i => simpa [QdkEc.siteProbability] using ih i

end Raises

section Bounds

variable {K : Type} [Field K] [LinearOrder K] [IsStrictOrderedRing K]
  {sites raised : List (LossSite K)} {survival survival' : ℕ → K} {i : ℕ}

def AreProbabilities (sites : List (LossSite K)) : Prop :=
  ∀ site ∈ sites, 0 ≤ site.probability ∧ site.probability ≤ 1

theorem AreProbabilities.siteProbability (h : AreProbabilities sites) (i : ℕ) :
    0 ≤ siteProbability sites i ∧ siteProbability sites i ≤ 1 := by
  cases hget : sites[i]? with
  | none => simp [QdkEc.siteProbability, hget]
  | some site => simpa [QdkEc.siteProbability, hget] using h site (mem_of_getElem? hget)

theorem IsSurvival.mem_unit (hsurvival : IsSurvival sites survival) (h : Acyclic sites)
    (hp : AreProbabilities sites) (hi : i < sites.length) : 0 ≤ survival i ∧ survival i ≤ 1 := by
  induction i using h.wellFounded.induction with
  | _ i ih =>
    have hpower : ∀ j ∈ Finset.range sites.length,
        0 ≤ survival j ^ childCount sites j i ∧ survival j ^ childCount sites j i ≤ 1 := by
      intro j hj
      obtain hcount | hcount := Nat.eq_zero_or_pos (childCount sites j i)
      · simp [hcount]
      · obtain ⟨hlow, hhigh⟩ := ih j ⟨hi, hcount⟩ (Finset.mem_range.mp hj)
        exact ⟨pow_nonneg hlow _, pow_le_one₀ hlow hhigh⟩
    obtain ⟨hlow, hhigh⟩ := hp.siteProbability i
    rw [hsurvival i hi]
    exact ⟨mul_nonneg (by linarith) (Finset.prod_nonneg fun j hj => (hpower j hj).1),
      mul_le_one₀ (by linarith) (Finset.prod_nonneg fun j hj => (hpower j hj).1)
        (Finset.prod_le_one (fun j hj => (hpower j hj).1) fun j hj => (hpower j hj).2)⟩

theorem IsSurvival.antitone (hsurvival : IsSurvival sites survival)
    (hsurvival' : IsSurvival raised survival') (hraises : Raises sites raised)
    (h : Acyclic raised) (hp : AreProbabilities raised) (hi : i < sites.length) :
    survival' i ≤ survival i := by
  have hlength : raised.length = sites.length := hraises.length_eq.symm
  induction i using h.wellFounded.induction with
  | _ i ih =>
    rw [hsurvival i hi, hsurvival' i (hlength ▸ hi), hlength, hraises.childCount]
    obtain ⟨-, hhigh⟩ := hp.siteProbability i
    have hle := hraises.siteProbability_le i
    have hnonneg : ∀ j ∈ Finset.range sites.length,
        0 ≤ survival' j ^ childCount sites j i := by
      intro j hj
      exact pow_nonneg (hsurvival'.mem_unit h hp (hlength ▸ Finset.mem_range.mp hj)).1 _
    refine mul_le_mul (by linarith) (Finset.prod_le_prod hnonneg fun j hj => ?_)
      (Finset.prod_nonneg hnonneg) (by linarith)
    obtain hcount | hcount := Nat.eq_zero_or_pos (childCount sites j i)
    · simp [hcount]
    · refine pow_le_pow_left₀ (hsurvival'.mem_unit h hp
        (hlength ▸ Finset.mem_range.mp hj)).1 (ih j ⟨hlength ▸ hi, ?_⟩
          (Finset.mem_range.mp hj)) _
      rwa [hraises.childCount]

end Bounds

/-- The sites in another order, with their children under their new positions. -/
structure Renumbers {K : Type} (position : Equiv.Perm ℕ) (sites renumbered : List (LossSite K)) :
    Prop where
  length : renumbered.length = sites.length
  lt : ∀ i, position i < sites.length ↔ i < sites.length
  site : ∀ i, renumbered[position i]? =
    sites[i]?.map fun site => { site with children := site.children.map position }

namespace Renumbers

variable {K : Type} {sites renumbered : List (LossSite K)} {position : Equiv.Perm ℕ}

section

variable (h : Renumbers position sites renumbered)

include h

theorem childCount (i j : ℕ) :
    childCount renumbered (position i) (position j) = QdkEc.childCount sites i j := by
  rw [QdkEc.childCount, QdkEc.childCount, h.site]
  cases sites[i]? with
  | none => rfl
  | some site => exact count_map_of_injective _ _ position.injective _

theorem isChild_iff (i j : ℕ) :
    IsChild renumbered (position i) (position j) ↔ IsChild sites i j := by
  rw [IsChild, IsChild, h.length, h.lt, h.childCount]

theorem acyclic (hacyclic : Acyclic sites) :
    Acyclic renumbered := by
  intro i hi
  refine hacyclic (position.symm i) (hi.lift position.symm fun a b hab => ?_)
  change IsChild sites _ _
  rw [← h.isChild_iff]
  simpa using hab

theorem siteProbability [Zero K] (i : ℕ) :
    siteProbability renumbered (position i) = QdkEc.siteProbability sites i := by
  rw [QdkEc.siteProbability, QdkEc.siteProbability, h.site]
  cases sites[i]? <;> rfl

theorem map_range :
    (Finset.range sites.length).map position.toEmbedding = Finset.range sites.length := by
  ext i
  rw [Finset.mem_map_equiv, Finset.mem_range, Finset.mem_range, ← h.lt, Equiv.apply_symm_apply]

theorem survival_eq [CommRing K] {survival survival' : ℕ → K} (hacyclic : Acyclic sites)
    (hsurvival : IsSurvival sites survival) (hsurvival' : IsSurvival renumbered survival') {i : ℕ}
    (hi : i < sites.length) : survival' (position i) = survival i := by
  induction i using hacyclic.wellFounded.induction with
  | _ i ih =>
    rw [hsurvival i hi, hsurvival' (position i) (by rwa [h.length, h.lt]), h.siteProbability,
      h.length, ← h.map_range, Finset.prod_map, h.map_range]
    refine congrArg _ (Finset.prod_congr rfl fun j hj => ?_)
    rw [Equiv.coe_toEmbedding, h.childCount]
    obtain hcount | hcount := Nat.eq_zero_or_pos (QdkEc.childCount sites j i)
    · rw [hcount, pow_zero, pow_zero]
    · rw [ih j ⟨hi, hcount⟩ (Finset.mem_range.mp hj)]

theorem getElem?_accumulated [CommRing K]
    (hacyclic : Acyclic sites) (i : ℕ) : (accumulatedSiteProbabilities renumbered)[position i]? =
      (accumulatedSiteProbabilities sites)[i]? := by
  obtain ⟨survival, hsurvival⟩ := hacyclic.exists_isSurvival (K := K)
  obtain ⟨survival', hsurvival'⟩ := (h.acyclic hacyclic).exists_isSurvival (K := K)
  by_cases hi : i < sites.length
  · rw [getElem?_accumulatedSiteProbabilities hacyclic hsurvival hi,
      getElem?_accumulatedSiteProbabilities (h.acyclic hacyclic) hsurvival'
        (by rwa [h.length, h.lt]), h.survival_eq hacyclic hsurvival hsurvival' hi]
  · rw [getElem?_eq_none, getElem?_eq_none]
    · rwa [length_accumulatedSiteProbabilities hacyclic, ← not_lt]
    · rwa [length_accumulatedSiteProbabilities (h.acyclic hacyclic), h.length, ← not_lt, h.lt]

end

end Renumbers

section Activations

variable {K : Type} [CommRing K]

/-- The edges that a site activates with their probabilities. -/
def contributions (site : LossSite K × K) : List (ℕ × K) :=
  (site.1.sourceEdges.map fun edge =>
      (edge, if edge ∈ site.1.continuationEdges then site.2 else site.1.probability)) ++
    (site.1.continuationEdges.filter fun edge => !site.1.sourceEdges.contains edge).map
      fun edge => (edge, site.2)

/-- Activate an edge with a probability. -/
def addContribution (activations : List ℕ × GidMap K) (contribution : ℕ × K) :
    List ℕ × GidMap K :=
  activate activations contribution.1 contribution.2

theorem foldl_activateSite (sites : List (LossSite K × K)) (activations : List ℕ × GidMap K) :
    sites.foldl activateSite activations =
      (sites.flatMap contributions).foldl addContribution activations := by
  induction sites generalizing activations with
  | nil => rfl
  | cons site sites ih =>
    rw [foldl_cons, ih, flatMap_cons, foldl_append, contributions,
      foldl_append, foldl_map, foldl_map]
    rfl

/-- What is activated: each edge once, with the odd probability of its contributions. -/
structure Activates (contributions : List (ℕ × K)) (activations : List ℕ × GidMap K) : Prop where
  nodup : activations.1.Nodup
  mem : ∀ edge, edge ∈ activations.1 ↔ edge ∈ contributions.map Prod.fst
  lookup : ∀ edge, activations.2.lookup edge =
    if edge ∈ contributions.map Prod.fst then
      some (((contributions.filter (·.1 = edge)).map Prod.snd).foldl exclusiveProbabilityOf 0)
    else none

theorem activates_foldl (contributions : List (ℕ × K)) :
    Activates contributions (contributions.foldl addContribution ([], ∅)) := by
  induction contributions using List.reverseRecOn with
  | nil => exact ⟨nodup_nil, by simp, by simp⟩
  | append_singleton contributions last ih =>
    rw [foldl_append, foldl_cons, foldl_nil]
    generalize contributions.foldl addContribution ([], ∅) = activations at ih
    have hother : ∀ edge, edge ≠ last.1 → activations.2.lookup edge =
        if edge ∈ (contributions ++ [last]).map Prod.fst then
          some ((((contributions ++ [last]).filter (·.1 = edge)).map Prod.snd).foldl
            exclusiveProbabilityOf 0)
        else none := by
      intro edge hedge
      have hfilter : (contributions ++ [last]).filter (·.1 = edge) =
          contributions.filter (·.1 = edge) := by
        simp [filter_append, Ne.symm hedge]
      rw [ih.lookup, hfilter]
      simp only [map_append, map_singleton, mem_append, mem_singleton, hedge, or_false]
    rw [addContribution, activate, ih.lookup]
    by_cases hold : last.1 ∈ contributions.map Prod.fst
    · rw [if_pos hold]
      refine ⟨ih.nodup, fun edge => ?_, fun edge => ?_⟩
      · simp only [Option.elim_some, ih.mem, map_append, mem_append]
        refine ⟨.inl, fun h => h.elim id fun h => ?_⟩
        obtain rfl := mem_singleton.mp h
        exact hold
      · simp only [Option.elim_some]
        by_cases hedge : edge = last.1
        · subst hedge
          simp [AList.lookup_insert]
        · rw [AList.lookup_insert_ne hedge, hother edge hedge]
    · rw [if_neg hold]
      refine ⟨?_, fun edge => ?_, fun edge => ?_⟩
      · simp only [Option.elim_none, nodup_append]
        exact ⟨ih.nodup, nodup_singleton _, fun edge hedge other hother heq =>
          hold ((ih.mem _).mp ((mem_singleton.mp hother) ▸ heq ▸ hedge))⟩
      · simp [ih.mem]
      · simp only [Option.elim_none]
        by_cases hedge : edge = last.1
        · subst hedge
          have hnone : contributions.filter (·.1 = last.1) = [] := by
            rw [filter_eq_nil_iff]
            intro contribution hmem heq
            exact hold (mem_map.mpr ⟨contribution, hmem, by simpa using heq⟩)
          simp [AList.lookup_insert, hnone, exclusiveProbabilityOf]
        · rw [AList.lookup_insert_ne hedge, hother edge hedge]

instance : RightCommutative (exclusiveProbabilityOf (K := K)) :=
  ⟨fun a b c => by simp only [exclusiveProbabilityOf]; ring⟩

theorem Activates.perm {contributions contributions' : List (ℕ × K)}
    {activations activations' : List ℕ × GidMap K} (h : Activates contributions activations)
    (h' : Activates contributions' activations') (hperm : contributions.Perm contributions') :
    activations.1.Perm activations'.1 ∧
      ∀ edge, activations.2.lookup edge = activations'.2.lookup edge := by
  have hmem : ∀ edge, edge ∈ contributions.map Prod.fst ↔ edge ∈ contributions'.map Prod.fst :=
    fun edge => (hperm.map Prod.fst).mem_iff
  refine ⟨(perm_ext_iff_of_nodup h.nodup h'.nodup).mpr fun edge => ?_, fun edge => ?_⟩
  · rw [h.mem, h'.mem, hmem]
  · rw [h.lookup, h'.lookup, ((hperm.filter _).map Prod.snd).foldl_eq]
    simp only [hmem]

end Activations

theorem flatMap_contributions {K : Type} [CommRing K] {sites : List (LossSite K)}
    {accumulated : List K} (h : accumulated.length = sites.length) :
    (sites.zip accumulated).flatMap contributions = (List.range sites.length).flatMap fun i =>
      (sites[i]?).elim [] fun site => contributions (site, accumulated.getD i 0) := by
  induction sites using List.reverseRecOn generalizing accumulated with
  | nil => rfl
  | append_singleton sites site ih =>
    obtain ⟨before, last, rfl⟩ := accumulated.eq_nil_or_concat.resolve_left fun hnil => by
      simp [hnil] at h
    rw [concat_eq_append] at h ⊢
    have hlength : before.length = sites.length := by simpa using h
    rw [zip_append hlength.symm, flatMap_append, ih hlength, length_append,
      length_singleton, range_succ, flatMap_append]
    congr 1
    · refine flatMap_congr fun i hi => ?_
      rw [mem_range] at hi
      rw [getElem?_append_left hi, getD_append _ _ _ _ (hlength ▸ hi)]
    · simp [hlength]

theorem Renumbers.lossReweights_perm {K W : Type} [Field K] [DecidableEq K]
    {sites renumbered : List (LossSite K)} {position : Equiv.Perm ℕ}
    (h : Renumbers position sites renumbered) (hacyclic : Acyclic sites) (scale : WeightScale K W)
    (hypergraph : DecodingHypergraph K) (policy : EnvelopeReweightPolicy W) :
    (lossReweights scale renumbered hypergraph policy).Perm
      (lossReweights scale sites hypergraph policy) := by
  have hperm : ((renumbered.zip (accumulatedSiteProbabilities renumbered)).flatMap
      contributions).Perm ((sites.zip (accumulatedSiteProbabilities sites)).flatMap
        contributions) := by
    rw [flatMap_contributions (length_accumulatedSiteProbabilities hacyclic),
      flatMap_contributions (length_accumulatedSiteProbabilities (h.acyclic hacyclic)), h.length]
    have hrange : (List.range sites.length).Perm ((List.range sites.length).map position) := by
      refine (perm_ext_iff_of_nodup nodup_range
        (nodup_range.map position.injective)).mpr fun i => ?_
      simp only [mem_range, mem_map]
      constructor
      · intro hi
        exact ⟨position.symm i, by rwa [← h.lt, Equiv.apply_symm_apply], by simp⟩
      · rintro ⟨j, hj, rfl⟩
        exact (h.lt j).mpr hj
    refine (hrange.flatMap_right _).trans (List.Perm.of_eq ?_)
    rw [flatMap_map]
    refine flatMap_congr fun i _ => ?_
    rw [h.site, getD_eq_getElem?_getD, getD_eq_getElem?_getD, h.getElem?_accumulated hacyclic]
    cases sites[i]? <;> rfl
  obtain ⟨horder, hlookup⟩ := (activates_foldl _).perm (activates_foldl _) hperm
  rw [lossReweights, lossReweights, foldl_activateSite, foldl_activateSite]
  refine (horder.map _).trans (List.Perm.of_eq (map_congr_left fun edge _ => ?_))
  rw [hlookup]

section Main

variable {K W : Type} [Field K] [LinearOrder K] [IsStrictOrderedRing K]

/-- Losses accumulate: a site combines its parents, probabilities are bounded and monotone, and the
order of the sites does not matter. -/
structure AccumulatesLosses (scale : WeightScale K W) (sites : List (LossSite K)) : Prop where
  parents : ∀ i < sites.length, (accumulatedSiteProbabilities sites)[i]? =
    some (((parents sites i).map fun parent =>
      (accumulatedSiteProbabilities sites).getD parent 0).foldl unionProbabilityOf
        (siteProbability sites i))
  bounded : AreProbabilities sites → ∀ i < sites.length,
    0 ≤ (accumulatedSiteProbabilities sites).getD i 0 ∧
      (accumulatedSiteProbabilities sites).getD i 0 ≤ 1
  monotone : ∀ raised, Raises sites raised → AreProbabilities raised → ∀ i < sites.length,
    (accumulatedSiteProbabilities sites).getD i 0 ≤ (accumulatedSiteProbabilities raised).getD i 0
  renumbered : ∀ (position : Equiv.Perm ℕ) (renumbered : List (LossSite K)),
    Renumbers position sites renumbered → ∀ i,
      (accumulatedSiteProbabilities renumbered)[position i]? =
        (accumulatedSiteProbabilities sites)[i]?
  reweights : ∀ (position : Equiv.Perm ℕ) (renumbered : List (LossSite K)),
    Renumbers position sites renumbered → ∀ hypergraph policy,
      (lossReweights scale renumbered hypergraph policy).Perm
        (lossReweights scale sites hypergraph policy)

/-- Losses accumulate when no site comes before itself. -/
theorem accumulatesLosses (scale : WeightScale K W) (sites : List (LossSite K))
    (h : Acyclic sites) : AccumulatesLosses scale sites := by
  obtain ⟨survival, hsurvival⟩ := h.exists_isSurvival
  have hvalue : ∀ i < sites.length,
      (accumulatedSiteProbabilities sites).getD i 0 = 1 - survival i := by
    intro i hi
    rw [getD_eq_getElem?_getD, getElem?_accumulatedSiteProbabilities h hsurvival hi,
      Option.getD_some]
  refine
    ⟨fun i hi => accumulated_eq_foldl h hi, fun hp i hi => ?_, fun raised hraises hp i hi => ?_,
    fun position renumbered hrenumbers => hrenumbers.getElem?_accumulated h,
    fun position renumbered hrenumbers => hrenumbers.lossReweights_perm h scale⟩
  · obtain ⟨hlow, hhigh⟩ := hsurvival.mem_unit h hp hi
    rw [hvalue i hi]
    exact ⟨by linarith, by linarith⟩
  · have hchild : IsChild raised = IsChild sites := by
      funext i j
      rw [IsChild, IsChild, hraises.childCount, hraises.length_eq]
    have hacyclic : Acyclic raised := by rwa [Acyclic, hchild]
    obtain ⟨survival', hsurvival'⟩ := hacyclic.exists_isSurvival (K := K)
    rw [hvalue i hi, getD_eq_getElem?_getD, getElem?_accumulatedSiteProbabilities hacyclic
      hsurvival' (hraises.length_eq ▸ hi), Option.getD_some]
    have := hsurvival.antitone hsurvival' hraises hacyclic hp hi
    linarith

end Main

/-- An atom that can be lost at two places, one after the other. -/
def sampleSites : List (LossSite ℚ) :=
  [⟨[0], [1], 1 / 4, [1], []⟩, ⟨[1], [1, 2], 1 / 2, [], []⟩]

theorem acyclic_sampleSites : Acyclic sampleSites := by
  have hlt : ∀ i j, IsChild sampleSites i j → i < j := by
    intro i j hij
    have hi := hij.lt
    have hj := hij.1
    have hcount := hij.2
    change i < 2 at hi
    change j < 2 at hj
    interval_cases i <;> interval_cases j <;> simp_all [childCount, sampleSites]
  intro i hi
  have hless : Relation.TransGen (· < ·) i i := Relation.TransGen.mono hlt i i hi
  rw [Relation.transGen_eq_self] at hless
  exact lt_irrefl i hless

theorem accumulatesLosses_sampleSites :
    AccumulatesLosses (⟨id, id, 0, (· + ·), max, (· * ·), (· / ·)⟩ : WeightScale ℚ ℚ) sampleSites :=
  accumulatesLosses _ sampleSites acyclic_sampleSites

end QdkEc
