import QdkEc.DeqRuntime.ComponentExecution

/-!
# Searching and removing a component

This module shows that the search from a gadget of a complete component ends with the
gadgets of the component, each once, and that removing them leaves the other components
as they are.
-/

namespace QdkEc

open List

namespace MonolithicCoordinator

/-- Two gadgets have a connection, in one of the two directions. -/
def IsNeighbour (gadgets : GidMap MonolithicGadget) (u v : ℕ) : Prop :=
  Adjacent gadgets u v ∨ Adjacent gadgets v u

theorem mem_of_connected {gadgets : GidMap MonolithicGadget} {S : Set ℕ}
    (hS : ∀ u ∈ S, ∀ v, IsNeighbour gadgets u v → v ∈ S) {u v : ℕ} (huv : Connected gadgets u v) :
    u ∈ S ↔ v ∈ S := by
  induction huv with
  | rel u v huv => exact ⟨fun hu => hS u hu v (.inl huv), fun hv => hS v hv u (.inr huv)⟩
  | refl u => exact Iff.rfl
  | symm u v _ ih => exact ih.symm
  | trans u v w _ _ ih ih' => exact ih.trans ih'

theorem connected_of_isNeighbour {gadgets : GidMap MonolithicGadget} {u v : ℕ}
    (huv : IsNeighbour gadgets u v) : Connected gadgets u v :=
  huv.elim (.rel u v) fun hvu => .symm v u (.rel v u hvu)

theorem exists_mapM_id_eq {A : Type} (l : List (Option A)) (hl : none ∉ l) :
    ∃ entries : List A, l.mapM id = some entries ∧ l = entries.map some := by
  induction l with
  | nil => exact ⟨[], rfl, rfl⟩
  | cons a l ih =>
    rw [mem_cons, not_or] at hl
    obtain ⟨entry, rfl⟩ := Option.ne_none_iff_exists'.mp (Ne.symm hl.1)
    obtain ⟨entries, hentries, rfl⟩ := ih hl.2
    refine ⟨entry :: entries, ?_, rfl⟩
    rw [mapM_cons, hentries]
    rfl

theorem Wired.exists_neighbours_eq {gadgets : GidMap MonolithicGadget} (h : Wired gadgets) {u : ℕ}
    {gadget : MonolithicGadget} (hgadget : gadgets.lookup u = some gadget)
    (hconnected : ∀ port, ¬ IsUnconnected gadgets u port) :
    ∃ next, neighbours gadget = some next ∧ ∀ v, v ∈ next ↔ IsNeighbour gadgets u v := by
  have hfree : none ∉ gadget.outputs := by
    intro hmem
    obtain ⟨port, hport⟩ := mem_iff_getElem?.mp hmem
    exact hconnected port ((h.isUnconnected_iff hgadget port).mpr hport)
  obtain ⟨outputs, houtputs, hsome⟩ := exists_mapM_id_eq gadget.outputs hfree
  refine ⟨outputs.map Connector.gid ++ gadget.connectors.map Connector.gid, ?_, fun v => ?_⟩
  · rw [neighbours, houtputs]
    rfl
  · have hinputs : v ∈ gadget.connectors.map Connector.gid ↔ Adjacent gadgets u v := by
      constructor
      · exact fun hv => ⟨gadget, hgadget, hv⟩
      · rintro ⟨gadget', hgadget', hv⟩
        obtain rfl := Option.some_inj.mp (hgadget'.symm.trans hgadget)
        exact hv
    have husers : v ∈ outputs.map Connector.gid ↔ Adjacent gadgets v u := by
      constructor
      · intro hv
        obtain ⟨c, hc, rfl⟩ := mem_map.mp hv
        obtain ⟨port, hport⟩ := mem_iff_getElem?.mp hc
        have hentry : gadget.outputs[port]? = some (some c) := by
          rw [hsome, getElem?_map, hport, Option.map_some]
        obtain ⟨user, huser, hmem⟩ := h.user hgadget port c hentry
        exact ⟨user, huser, mem_map.mpr ⟨_, hmem, rfl⟩⟩
      · rintro ⟨user, huser, hv⟩
        obtain ⟨c, hc, rfl⟩ := mem_map.mp hv
        obtain ⟨peer, port, hpeer, hentry⟩ := h.peer huser c hc
        obtain rfl := Option.some_inj.mp (hpeer.symm.trans hgadget)
        have hmem := mem_of_getElem? hentry
        rw [hsome] at hmem
        obtain ⟨d, hd, hdeq⟩ := mem_map.mp hmem
        obtain rfl := Option.some_inj.mp hdeq
        exact mem_map.mpr ⟨_, hd, rfl⟩
    rw [mem_append, hinputs, husers, IsNeighbour, or_comm]

/-- What was visited since a search had found a subgraph. -/
structure Visited (subgraph : List ℕ) (found : List ℕ × List ℕ) : Prop where
  eq : found.1 = subgraph ++ found.2
  nodup : found.1.Nodup

variable {found : List ℕ × List ℕ}

theorem Visited.visit {subgraph : List ℕ} (h : Visited subgraph found) (next : ℕ) :
    Visited subgraph (visit found next) ∧
      ∀ u, u ∈ (MonolithicCoordinator.visit found next).1 ↔ u ∈ found.1 ∨ u = next := by
  by_cases hnext : next ∈ found.1
  · rw [MonolithicCoordinator.visit, if_pos hnext]
    refine ⟨h, fun u => (or_iff_left_of_imp ?_).symm⟩
    rintro rfl
    exact hnext
  · rw [MonolithicCoordinator.visit, if_neg hnext]
    refine ⟨⟨?_, ?_⟩, fun u => ?_⟩
    · rw [h.eq, append_assoc]
    · exact List.Nodup.append h.nodup (nodup_singleton next)
        (disjoint_singleton.mpr hnext)
    · rw [mem_append, mem_singleton]

theorem Visited.foldl_visit {subgraph : List ℕ} (h : Visited subgraph found) (next : List ℕ) :
    Visited subgraph (next.foldl MonolithicCoordinator.visit found) ∧
      ∀ u, u ∈ (next.foldl MonolithicCoordinator.visit found).1 ↔ u ∈ found.1 ∨ u ∈ next := by
  induction next generalizing found with
  | nil => exact ⟨h, fun u => by simp⟩
  | cons v next ih =>
    obtain ⟨hvisit, hmem⟩ := h.visit v
    obtain ⟨hrest, hmem'⟩ := ih hvisit
    refine ⟨hrest, fun u => ?_⟩
    rw [foldl_cons, hmem', hmem, mem_cons, or_assoc]

section Search

variable {gadgets : GidMap MonolithicGadget} (h : Wired gadgets)
variable {gid : ℕ} (hgid : gid ∈ gadgets) (hcomplete : IsComplete gadgets gid)

include h hgid hcomplete

theorem exists_foldlM_expand_eq {subgraph : List ℕ}
    (hvisited : Visited subgraph found) (boundary : List ℕ)
    (hboundary : ∀ u ∈ boundary, Connected gadgets gid u) :
    ∃ found', boundary.foldlM (expand gadgets) found = some found' ∧ Visited subgraph found' ∧
      ∀ v, v ∈ found'.1 ↔ v ∈ found.1 ∨ ∃ u ∈ boundary, IsNeighbour gadgets u v := by
  induction boundary generalizing found with
  | nil => exact ⟨found, rfl, hvisited, fun v => by simp⟩
  | cons u boundary ih =>
    have hu := hboundary u mem_cons_self
    obtain ⟨gadget, hgadget⟩ :=
      exists_lookup_of_mem ((h.mem_iff_of_connected hu).mp hgid)
    obtain ⟨next, hnext, hmem⟩ := h.exists_neighbours_eq hgadget (hcomplete u hu).2
    obtain ⟨hvisit, hmem'⟩ := hvisited.foldl_visit next
    obtain ⟨found', hfold, hvisited', hmem''⟩ :=
      ih hvisit fun v hv => hboundary v (mem_cons_of_mem u hv)
    refine ⟨found', ?_, hvisited', fun v => ?_⟩
    · rw [foldlM_cons, expand, hgadget]
      simp only [Option.bind_eq_bind, Option.bind_some, hnext]
      exact hfold
    · rw [hmem'', hmem', hmem, or_assoc]
      simp

theorem exists_expandAll_eq (fuel : ℕ) {subgraph boundary : List ℕ} (hnodup : subgraph.Nodup)
    (hself : gid ∈ subgraph) (hsubset : boundary ⊆ subgraph)
    (hconnected : ∀ u ∈ subgraph, Connected gadgets gid u)
    (hclosed : ∀ u ∈ subgraph, u ∉ boundary → ∀ v, IsNeighbour gadgets u v → v ∈ subgraph)
    (hfuel : boundary ≠ [] → gadgets.keys.length < subgraph.length + fuel) :
    ∃ component, expandAll gadgets fuel (subgraph, boundary) = some component ∧
      component.Nodup ∧ ∀ u, u ∈ component ↔ Connected gadgets gid u := by
  induction fuel generalizing subgraph boundary with
  | zero =>
    cases boundary with
    | nil =>
      refine ⟨subgraph, rfl, hnodup, fun u => ⟨hconnected u, fun hu => ?_⟩⟩
      exact (mem_of_connected (S := {u | u ∈ subgraph})
        (fun u hu => hclosed u hu not_mem_nil) hu).mp hself
    | cons u boundary =>
      have hlive : subgraph ⊆ gadgets.keys := fun v hv =>
        AList.mem_keys.mp ((h.mem_iff_of_connected (hconnected v hv)).mp hgid)
      have hle := (subperm_of_subset hnodup hlive).length_le
      exact absurd (hfuel (cons_ne_nil u boundary)) (Nat.not_lt_of_le hle)
  | succ fuel ih =>
    cases boundary with
    | nil =>
      refine ⟨subgraph, rfl, hnodup, fun u => ⟨hconnected u, fun hu => ?_⟩⟩
      exact (mem_of_connected (S := {u | u ∈ subgraph})
        (fun u hu => hclosed u hu not_mem_nil) hu).mp hself
    | cons u boundary =>
      have hinitial : Visited subgraph (subgraph, []) := ⟨(append_nil _).symm, hnodup⟩
      obtain ⟨found, hfound, hvisited, hmem⟩ := exists_foldlM_expand_eq h hgid hcomplete
        hinitial (u :: boundary) fun v hv => hconnected v (hsubset hv)
      have hfound' : found.1 = subgraph ++ found.2 := hvisited.eq
      have hsubset' : found.2 ⊆ found.1 := by
        rw [hfound']
        exact subset_append_right _ _
      have hconnected' : ∀ v ∈ found.1, Connected gadgets gid v := by
        intro v hv
        rcases (hmem v).mp hv with hold | ⟨w, hw, hwv⟩
        · exact hconnected v hold
        · exact .trans _ _ _ (hconnected w (hsubset hw)) (connected_of_isNeighbour hwv)
      -- What is not new was in the boundary or was closed before.
      have hclosed' : ∀ v ∈ found.1, v ∉ found.2 → ∀ w, IsNeighbour gadgets v w →
          w ∈ found.1 := by
        intro v hv hnew w hvw
        rw [hfound', mem_append] at hv
        have hold := hv.resolve_right hnew
        by_cases hin : v ∈ u :: boundary
        · exact (hmem w).mpr (.inr ⟨v, hin, hvw⟩)
        · exact (hmem w).mpr (.inl (hclosed v hold hin w hvw))
      have hfuel' : found.2 ≠ [] → gadgets.keys.length < found.1.length + fuel := by
        intro hne
        have hpos := length_pos_iff.mpr hne
        have hlt := hfuel (cons_ne_nil u boundary)
        rw [hfound', length_append]
        omega
      obtain ⟨component, hcomponent, hspec⟩ := ih hvisited.nodup
        ((hmem gid).mpr (.inl hself)) hsubset' hconnected' hclosed' hfuel'
      refine ⟨component, ?_, hspec⟩
      rw [expandAll, hfound, Option.bind_eq_bind, Option.bind_some]
      · exact hcomponent
      · exact cons_ne_nil u boundary

theorem exists_getSubgraph_eq :
    ∃ component, getSubgraph gadgets gid = some component ∧ component.Nodup ∧
      ∀ u, u ∈ component ↔ Connected gadgets gid u := by
  refine exists_expandAll_eq h hgid hcomplete _ (nodup_singleton gid)
    (mem_singleton_self gid) (List.Subset.refl _) ?_ ?_ ?_
  · intro u hu
    rw [mem_singleton.mp hu]
    exact .refl gid
  · exact fun u hu hnot => absurd hu hnot
  · intro
    omega

end Search

theorem exists_foldlM_removeGadget_eq (subgraph : List ℕ) (hnodup : subgraph.Nodup)
    {gadgets : GidMap MonolithicGadget} (hmem : ∀ u ∈ subgraph, u ∈ gadgets) :
    ∃ gadgets', subgraph.foldlM removeGadget gadgets = some gadgets' ∧
      (∀ u ∈ subgraph, u ∉ gadgets') ∧
        ∀ u, u ∉ subgraph → gadgets'.lookup u = gadgets.lookup u := by
  induction subgraph generalizing gadgets with
  | nil => exact ⟨gadgets, rfl, by simp, fun u _ => rfl⟩
  | cons gid subgraph ih =>
    rw [nodup_cons] at hnodup
    have hrest : ∀ u ∈ subgraph, u ∈ gadgets.erase gid := by
      intro u hu
      refine AList.mem_erase.mpr ⟨?_, hmem u (mem_cons_of_mem _ hu)⟩
      rintro rfl
      exact hnodup.1 hu
    obtain ⟨gadgets', hfold, hout, hlookup⟩ := ih hnodup.2 hrest
    refine ⟨gadgets', ?_, fun u hu => ?_, fun u hu => ?_⟩
    · rw [foldlM_cons, removeGadget, if_pos (hmem gid mem_cons_self)]
      exact hfold
    · rcases mem_cons.mp hu with rfl | hu
      · have herased := hlookup u hnodup.1
        rw [AList.lookup_erase] at herased
        exact AList.lookup_eq_none.mp herased
      · exact hout u hu
    · rw [mem_cons, not_or] at hu
      rw [hlookup u hu.2, AList.lookup_erase_ne hu.1]

section Removed

variable {gadgets gadgets' : GidMap MonolithicGadget} {subgraph : List ℕ} {gid : ℕ}
variable (hsubgraph : ∀ u, u ∈ subgraph ↔ Connected gadgets gid u)
variable (hout : ∀ u ∈ subgraph, u ∉ gadgets')
variable (hlookup : ∀ u, u ∉ subgraph → gadgets'.lookup u = gadgets.lookup u)

include hsubgraph hout hlookup

omit hsubgraph in
theorem mem_removed_iff (u : ℕ) : u ∈ gadgets' ↔ u ∈ gadgets ∧ u ∉ subgraph := by
  by_cases hu : u ∈ subgraph
  · exact iff_of_false (hout u hu) fun hmem => hmem.2 hu
  · rw [← AList.lookup_isSome, hlookup u hu, AList.lookup_isSome]
    exact (and_iff_left hu).symm

omit hsubgraph in
theorem adjacent_removed_iff (u v : ℕ) :
    Adjacent gadgets' u v ↔ Adjacent gadgets u v ∧ u ∉ subgraph := by
  constructor
  · rintro ⟨gadget, hgadget, hv⟩
    have hu := ((mem_removed_iff hout hlookup u).mp (mem_of_lookup hgadget)).2
    exact ⟨⟨gadget, (hlookup u hu).symm.trans hgadget, hv⟩, hu⟩
  · rintro ⟨⟨gadget, hgadget, hv⟩, hu⟩
    exact ⟨gadget, (hlookup u hu).trans hgadget, hv⟩

theorem connected_removed_iff {u : ℕ} (hu : u ∉ subgraph) (v : ℕ) :
    Connected gadgets' u v ↔ Connected gadgets u v := by
  constructor
  · exact fun huv => huv.mono fun a b hab =>
      ((adjacent_removed_iff hout hlookup a b).mp hab).1
  · intro huv
    induction huv with
    | rel a b hab => exact .rel a b ((adjacent_removed_iff hout hlookup a b).mpr ⟨hab, hu⟩)
    | refl a => exact .refl a
    | symm a b hab ih =>
      refine .symm a b (ih fun ha => hu ?_)
      rw [hsubgraph] at ha ⊢
      exact .trans _ _ _ ha hab
    | trans a b c hab _ ih ih' =>
      refine .trans a b c (ih hu) (ih' fun hb => hu ?_)
      rw [hsubgraph] at hb ⊢
      exact .trans _ _ _ hb (.symm _ _ hab)

theorem wired_removed (hwired : Wired gadgets) : Wired gadgets' := by
  have hold : ∀ {u gadget}, gadgets'.lookup u = some gadget →
      u ∉ subgraph ∧ gadgets.lookup u = some gadget := by
    intro u gadget hgadget
    have hu := ((mem_removed_iff hout hlookup u).mp (mem_of_lookup hgadget)).2
    exact ⟨hu, (hlookup u hu).symm.trans hgadget⟩
  have hstays : ∀ {u v}, u ∉ subgraph → Connected gadgets u v → v ∉ subgraph := by
    intro u v hu huv hv
    rw [hsubgraph] at hu hv
    exact hu (.trans _ _ _ hv (.symm _ _ huv))
  refine ⟨fun {u gadget} hgadget => ?_, fun {u gadget} hgadget c hc => ?_,
    fun {u gadget} hgadget port c hentry => ?_⟩
  · exact hwired.nodup (hold hgadget).2
  · obtain ⟨hu, hgadget'⟩ := hold hgadget
    obtain ⟨peer, port, hpeer, hentry⟩ := hwired.peer hgadget' c hc
    refine ⟨peer, port, (hlookup _ (hstays hu ?_)).trans hpeer, hentry⟩
    exact .rel _ _ ⟨gadget, hgadget', mem_map.mpr ⟨c, hc, rfl⟩⟩
  · obtain ⟨hu, hgadget'⟩ := hold hgadget
    obtain ⟨user, huser, hmem⟩ := hwired.user hgadget' port c hentry
    refine ⟨user, (hlookup _ (hstays hu ?_)).trans huser, hmem⟩
    exact .symm _ _ (.rel _ _ ⟨user, huser, mem_map.mpr ⟨_, hmem, rfl⟩⟩)

omit hsubgraph hout in
theorem weight_removed {u : ℕ} (hu : u ∉ subgraph) : weight gadgets' u = weight gadgets u := by
  rw [weight, hlookup u hu, weight]

theorem isComplete_removed_iff (hwired : Wired gadgets) {u : ℕ} (hmem : u ∈ gadgets') :
    IsComplete gadgets' u ↔ IsComplete gadgets u := by
  obtain ⟨hold, hu⟩ := (mem_removed_iff hout hlookup u).mp hmem
  rw [(wired_removed hsubgraph hout hlookup hwired).isComplete_iff_weight hmem,
    hwired.isComplete_iff_weight hold]
  refine forall_congr' fun v => imp_congr_ctx (connected_removed_iff hsubgraph hout hlookup hu v)
    fun huv => ?_
  rw [weight_removed hlookup]
  intro hv
  rw [hsubgraph] at hu hv
  exact hu (.trans _ _ _ hv (.symm _ _ huv))

end Removed

end MonolithicCoordinator

end QdkEc
