import QdkEc.DeqRuntime.ComponentCounters

/-!
# Executing and loading gadgets

This module shows that executing a gadget whose connectors are free outputs, and loading
the outcomes of a gadget, succeed and keep the counters of all components exact.  A
complete component has no free output, so no gadget is ever added to it.
-/

namespace QdkEc

open AList Option UnionFind

namespace MonolithicCoordinator

theorem exists_nextUnusedGid_eq (gadgets : GidMap MonolithicGadget) (fuel gid : ℕ)
    (hfuel : ((gadgets.keys.toFinset.filter fun u => gid ≤ u).card) < fuel) :
    ∃ next, nextUnusedGid gadgets fuel gid = some next ∧ next ∉ gadgets := by
  induction fuel generalizing gid with
  | zero => exact absurd hfuel (Nat.not_lt_zero _)
  | succ fuel ih =>
    by_cases hgid : gid ∈ gadgets
    · rw [nextUnusedGid, if_pos hgid]
      refine ih (gid + 1) (Nat.lt_of_lt_of_le (Finset.card_lt_card ?_) (Nat.le_of_lt_succ hfuel))
      refine (Finset.ssubset_iff_of_subset ?_).mpr ⟨gid, ?_, ?_⟩
      · exact Finset.monotone_filter_right _ fun u _ hu => Nat.le_of_succ_le hu
      · rw [Finset.mem_filter, List.mem_toFinset]
        exact ⟨mem_keys.mp hgid, le_rfl⟩
      · rw [Finset.mem_filter]
        exact fun hmem => Nat.not_succ_le_self gid hmem.2
    · exact ⟨gid, by rw [nextUnusedGid, if_neg hgid], hgid⟩

theorem exists_assignGid_eq (coordinator : MonolithicCoordinator) (gid : ℕ) :
    ∃ assigned, coordinator.assignGid gid = some assigned ∧
      (gid = 0 → assigned.1 ∉ coordinator.gadgets) ∧ (gid ≠ 0 → assigned.1 = gid) := by
  rcases eq_or_ne gid 0 with rfl | hgid
  · have hfuel : ((coordinator.gadgets.keys.toFinset.filter
        fun u => coordinator.nextGid ≤ u).card) < coordinator.gadgets.keys.length + 1 :=
      Nat.lt_succ_of_le ((Finset.card_filter_le _ _).trans (List.toFinset_card_le _))
    obtain ⟨next, hnext, hfresh⟩ := exists_nextUnusedGid_eq _ _ _ hfuel
    refine ⟨(next, next + 1), ?_, fun _ => hfresh, fun hne => absurd rfl hne⟩
    rw [assignGid, if_pos rfl, hnext, map_some]
  · exact ⟨_, if_neg hgid, fun hzero => absurd hzero hgid, fun _ => rfl⟩

/-- A gadget may be added: its identifier is new, and its connectors are different free outputs. -/
structure Connectable (gadgets : GidMap MonolithicGadget) (gid inputs : ℕ)
    (connectors : List Connector) :
    Prop where
  fresh : gid ∉ gadgets
  length : connectors.length = inputs
  nodup : connectors.Nodup
  free : ∀ c ∈ connectors,
    ∃ peer, gadgets.lookup c.gid = some peer ∧ peer.outputs[c.port]? = some none

/-- A gadget that was just executed. -/
def newGadget (gtype outputs : ℕ) (connectors : List Connector) : MonolithicGadget where
  gtype := gtype
  connectors := connectors
  outcomes := none
  outputs := List.replicate outputs none
  receiver := true

variable {u : ℕ} {r : ℕ → ℕ → Prop} {S : Finset ℕ}

section Added

variable {gadgets attached : GidMap MonolithicGadget}
variable {gid inputs : ℕ} {connectors : List Connector} (gtype outputs : ℕ)
variable (hc : Connectable gadgets gid inputs connectors)
variable (ha : Attaches gid connectors.zipIdx gadgets attached)

include hc ha

omit hc in
theorem mem_added_iff (u : ℕ) :
    u ∈ attached.insert gid (newGadget gtype outputs connectors) ↔ u = gid ∨ u ∈ gadgets := by
  rw [mem_insert, ha.mem_iff]

omit ha in
theorem ne_of_lookup {gadget : MonolithicGadget} (hgadget : gadgets.lookup u = some gadget) :
    u ≠ gid := by
  rintro rfl
  exact hc.fresh (mem_of_lookup hgadget)

/-- What is stored about an older gadget after an execution. -/
theorem lookup_added_old {gadget : MonolithicGadget} (hgadget : gadgets.lookup u = some gadget) :
    ∃ gadget', (attached.insert gid (newGadget gtype outputs connectors)).lookup u = some gadget' ∧
      gadget'.connectors = gadget.connectors ∧ gadget'.outcomes = gadget.outcomes ∧
      gadget'.receiver = gadget.receiver ∧ (∀ (port : ℕ) c, gadget'.outputs[port]? = some (some c) ↔
        gadget.outputs[port]? = some (some c) ∨
          c.gid = gid ∧ connectors[c.port]? = some ⟨u, port⟩) ∧
      gadget'.outputs.count none + (connectors.map Connector.gid).count u =
        gadget.outputs.count none := by
  obtain ⟨gadget', hgadget', hconnectors, houtcomes, hreceiver, houtputs, hcount⟩ :=
    ha.gadget hgadget
  refine ⟨gadget', ?_, hconnectors, houtcomes, hreceiver, fun port c => ?_, ?_⟩
  · rw [lookup_insert_ne (ne_of_lookup hc hgadget)]
    exact hgadget'
  · rw [houtputs, List.mem_zipIdx_iff_getElem?]
  · rw [← hcount]
    refine congrArg (fun l => gadget'.outputs.count none + List.count u l) ?_
    have hzip : connectors = connectors.zipIdx.map Prod.fst := (List.zipIdx_map_fst 0 _).symm
    conv_lhs => rw [hzip]
    rw [List.map_map]
    rfl

omit hc in
theorem exists_of_lookup_added {gadget' : MonolithicGadget} (hu : u ≠ gid)
    (hgadget' : (attached.insert gid (newGadget gtype outputs connectors)).lookup u =
      some gadget') : ∃ gadget, gadgets.lookup u = some gadget := by
  rw [lookup_insert_ne hu] at hgadget'
  exact exists_lookup_of_mem ((ha.mem_iff u).mp (mem_of_lookup hgadget'))

theorem exists_connectors_eq {u : ℕ} {gadget' : MonolithicGadget} (hu : u ≠ gid)
    (hgadget' : (attached.insert gid (newGadget gtype outputs connectors)).lookup u =
      some gadget') :
    ∃ gadget, gadgets.lookup u = some gadget ∧ gadget'.connectors = gadget.connectors := by
  obtain ⟨gadget, hgadget⟩ := exists_of_lookup_added _ _ ha hu hgadget'
  obtain ⟨gadget'', hgadget'', hconnectors, -⟩ := lookup_added_old gtype outputs hc ha hgadget
  obtain rfl := some_inj.mp (hgadget''.symm.trans hgadget')
  exact ⟨gadget, hgadget, hconnectors⟩

theorem adjacent_added_iff (u v : ℕ) :
    Adjacent (attached.insert gid (newGadget gtype outputs connectors)) u v ↔
      Adjacent gadgets u v ∨ u = gid ∧ v ∈ connectors.map Connector.gid := by
  constructor
  · rintro ⟨gadget', hgadget', hv⟩
    rcases eq_or_ne u gid with rfl | hu
    · rw [lookup_insert] at hgadget'
      obtain rfl := some_inj.mp hgadget'
      exact .inr ⟨rfl, hv⟩
    · obtain ⟨gadget, hgadget, hconnectors⟩ := exists_connectors_eq gtype outputs hc ha hu hgadget'
      exact .inl ⟨gadget, hgadget, hconnectors ▸ hv⟩
  · rintro (⟨gadget, hgadget, hv⟩ | ⟨rfl, hv⟩)
    · obtain ⟨gadget', hgadget', hconnectors, -⟩ := lookup_added_old _ _ hc ha hgadget
      exact ⟨gadget', hgadget', hconnectors ▸ hv⟩
    · exact ⟨_, lookup_insert _, hv⟩

theorem connected_added : Connected (attached.insert gid (newGadget gtype outputs connectors)) =
      joinAll (Connected gadgets) gid (connectors.map Connector.gid) := by
  have hadjacent : Adjacent (attached.insert gid (newGadget gtype outputs connectors)) =
      fun u v => Adjacent gadgets u v ∨ u = gid ∧ v ∈ connectors.map Connector.gid :=
    funext fun u => funext fun v => propext (adjacent_added_iff _ _ hc ha u v)
  rw [Connected, hadjacent, eqvGen_edges]
  rfl

/-- The stored connections agree after an execution. -/
theorem wired_added (hwired : Wired gadgets) :
    Wired (attached.insert gid (newGadget gtype outputs connectors)) where
  nodup {u gadget'} hgadget' := by
    rcases eq_or_ne u gid with rfl | hu
    · rw [lookup_insert] at hgadget'
      obtain rfl := some_inj.mp hgadget'
      exact hc.nodup
    · obtain ⟨gadget, hgadget, hconnectors⟩ := exists_connectors_eq gtype outputs hc ha hu hgadget'
      exact hconnectors ▸ hwired.nodup hgadget
  peer {u gadget'} hgadget' c hmem := by
    rcases eq_or_ne u gid with rfl | hu
    · rw [lookup_insert] at hgadget'
      obtain rfl := some_inj.mp hgadget'
      obtain ⟨port, hport⟩ := List.mem_iff_getElem?.mp hmem
      obtain ⟨peer, hpeer, -⟩ := hc.free c hmem
      obtain ⟨peer', hpeer', -, -, -, houtputs, -⟩ := lookup_added_old _ _ hc ha hpeer
      exact ⟨peer', port, hpeer', (houtputs c.port ⟨u, port⟩).mpr (.inr ⟨rfl, hport⟩)⟩
    · obtain ⟨gadget, hgadget, hconnectors⟩ := exists_connectors_eq gtype outputs hc ha hu hgadget'
      obtain ⟨peer, port, hpeer, hentry⟩ := hwired.peer hgadget c (hconnectors ▸ hmem)
      obtain ⟨peer', hpeer', -, -, -, houtputs, -⟩ := lookup_added_old _ _ hc ha hpeer
      exact ⟨peer', port, hpeer', (houtputs c.port ⟨u, port⟩).mpr (.inl hentry)⟩
  user {u gadget'} hgadget' port c hentry := by
    rcases eq_or_ne u gid with rfl | hu
    · rw [lookup_insert] at hgadget'
      obtain rfl := some_inj.mp hgadget'
      have hnone := List.eq_of_mem_replicate (List.mem_of_getElem? hentry)
      cases hnone
    · obtain ⟨gadget, hgadget⟩ := exists_of_lookup_added _ _ ha hu hgadget'
      obtain ⟨gadget'', hgadget'', -, -, -, houtputs, -⟩ :=
        lookup_added_old gtype outputs hc ha hgadget
      obtain rfl := some_inj.mp (hgadget''.symm.trans hgadget')
      rcases (houtputs port c).mp hentry with hold | ⟨hcgid, hconnector⟩
      · obtain ⟨user, huser, hmem⟩ := hwired.user hgadget port c hold
        obtain ⟨user', huser', hconnectors, -⟩ := lookup_added_old _ _ hc ha huser
        exact ⟨user', huser', hconnectors ▸ hmem⟩
      · exact ⟨_, by rw [hcgid, lookup_insert], List.mem_of_getElem? hconnector⟩

theorem weight_added (u : ℕ) : weight (attached.insert gid (newGadget gtype outputs connectors)) u +
        (0, (connectors.map Connector.gid).count u) =
      weight gadgets u + if u = gid then (1, outputs) else 0 := by
  rcases eq_or_ne u gid with rfl | hu
  · have hcount : (connectors.map Connector.gid).count u = 0 := by
      rw [List.count_eq_zero]
      intro hmem
      obtain ⟨c, hcmem, hcu⟩ := List.mem_map.mp hmem
      obtain ⟨peer, hpeer, -⟩ := hc.free c hcmem
      exact ne_of_lookup hc hpeer hcu
    have hold : gadgets.lookup u = none := lookup_eq_none.mpr hc.fresh
    rw [hcount, weight, lookup_insert, weight, hold, if_pos rfl]
    simp [newGadget]
  · rw [if_neg hu, add_zero]
    by_cases hmem : u ∈ gadgets
    · obtain ⟨gadget, hgadget⟩ := exists_lookup_of_mem hmem
      obtain ⟨gadget', hgadget', -, houtcomes, -, -, hcount⟩ :=
        lookup_added_old gtype outputs hc ha hgadget
      rw [weight, hgadget', weight, hgadget, elim_some, elim_some, houtcomes, ← hcount]
      rfl
    · have hcount : (connectors.map Connector.gid).count u = 0 := by
        rw [List.count_eq_zero]
        intro hcu
        obtain ⟨c, hcmem, rfl⟩ := List.mem_map.mp hcu
        obtain ⟨peer, hpeer, -⟩ := hc.free c hcmem
        exact hmem (mem_of_lookup hpeer)
      have hnew : (attached.insert gid (newGadget gtype outputs connectors)).lookup u = none := by
        rw [lookup_insert_ne hu]
        exact lookup_eq_none.mpr fun hin => hmem ((ha.mem_iff u).mp hin)
      rw [hcount, weight, hnew, weight, lookup_eq_none.mpr hmem]
      rfl

theorem weight_added_of_notMem (hu : u ≠ gid) (hpeer : u ∉ connectors.map Connector.gid) :
    weight (attached.insert gid (newGadget gtype outputs connectors)) u = weight gadgets u := by
  have hweight := weight_added gtype outputs hc ha u
  rw [List.count_eq_zero.mpr hpeer, if_neg hu, add_zero] at hweight
  exact hweight

theorem classSum_added (hself : gid ∈ S ∧ r gid gid)
    (hpeers : ∀ c ∈ connectors, c.gid ∈ S ∧ r gid c.gid) :
    classSum S r (weight (attached.insert gid (newGadget gtype outputs connectors))) gid +
        (0, connectors.length) = classSum S r (weight gadgets) gid + (1, outputs) := by
  classical
  have hcount : ∑ u ∈ S.filter (r gid), ((0, (connectors.map Connector.gid).count u) : ℕ × ℕ) =
      (0, connectors.length) := by
    refine Prod.ext ?_ ?_
    · rw [Prod.fst_sum]
      exact Finset.sum_const_zero
    · rw [Prod.snd_sum]
      have hmem : ∀ u ∈ (connectors.map Connector.gid : Multiset ℕ), u ∈ S.filter (r gid) := by
        intro u hu
        obtain ⟨c, hcmem, rfl⟩ := List.mem_map.mp (Multiset.mem_coe.mp hu)
        exact Finset.mem_filter.mpr (hpeers c hcmem)
      have hcard := Multiset.sum_count_eq_card hmem
      simpa using hcard
  have hnew : ∑ u ∈ S.filter (r gid), (if u = gid then ((1, outputs) : ℕ × ℕ) else 0) =
      (1, outputs) := by
    rw [Finset.sum_ite_eq', if_pos (Finset.mem_filter.mpr hself)]
  rw [classSum, classSum, ← hcount, ← Finset.sum_add_distrib,
    Finset.sum_congr rfl fun u _ => weight_added gtype outputs hc ha u,
    Finset.sum_add_distrib, hnew]

theorem classSum_added_of_not (hr : Equivalence r)
    (hpeers : ∀ c ∈ connectors, r gid c.gid) {b : ℕ} (hb : ¬ r gid b) :
    classSum S r (weight (attached.insert gid (newGadget gtype outputs connectors))) b =
      classSum S r (weight gadgets) b := by
  refine classSum_congr (fun _ _ => Iff.rfl) fun u _ hbu => ?_
  refine weight_added_of_notMem _ _ hc ha ?_ ?_
  · rintro rfl
    exact hb (hr.symm hbu)
  · intro hmem
    obtain ⟨c, hcmem, rfl⟩ := List.mem_map.mp hmem
    exact hb (hr.trans (hpeers c hcmem) (hr.symm hbu))

theorem connected_added_peer {c : Connector} (hcmem : c ∈ connectors) :
    Connected (attached.insert gid (newGadget gtype outputs connectors)) gid c.gid :=
  .rel _ _ ((adjacent_added_iff _ _ hc ha gid c.gid).mpr (.inr ⟨rfl, List.mem_map_of_mem hcmem⟩))

theorem connected_added_of_connected {u v : ℕ} (huv : Connected gadgets u v) :
    Connected (attached.insert gid (newGadget gtype outputs connectors)) u v :=
  huv.mono fun a b hab => (adjacent_added_iff _ _ hc ha a b).mpr (.inl hab)

theorem connected_added_iff (hgid : ¬ Connected gadgets u gid)
    (hpeers : ∀ c ∈ connectors, ¬ Connected gadgets u c.gid) (v : ℕ) :
    Connected (attached.insert gid (newGadget gtype outputs connectors)) u v ↔
      Connected gadgets u v := by
  rw [connected_added _ _ hc ha]
  refine joinAll_iff_of_not (connected_equivalence gadgets) hgid (fun b hb => ?_) v
  obtain ⟨c, hcmem, rfl⟩ := List.mem_map.mp hb
  exact hpeers c hcmem

theorem connected_added_iff_of_isComplete (hwired : Wired gadgets) (hu : u ∈ gadgets)
    (hcomplete : IsComplete gadgets u) (v : ℕ) :
    Connected (attached.insert gid (newGadget gtype outputs connectors)) u v ↔
      Connected gadgets u v := by
  refine connected_added_iff _ _ hc ha (fun hgid => ?_) (fun c hcmem hpeer => ?_) v
  · exact hc.fresh ((hwired.mem_iff_of_connected hgid).mp hu)
  · obtain ⟨peer, hpeer', hfree⟩ := hc.free c hcmem
    exact (hcomplete c.gid hpeer).2 c.port ((hwired.isUnconnected_iff hpeer' c.port).mpr hfree)

theorem isComplete_added_iff (hwired : Wired gadgets) (hu : u ∈ gadgets) :
    IsComplete (attached.insert gid (newGadget gtype outputs connectors)) u ↔
      IsComplete gadgets u := by
  have hu' : u ∈ attached.insert gid (newGadget gtype outputs connectors) :=
    (mem_added_iff _ _ ha u).mpr (.inr hu)
  by_cases hnew : Connected (attached.insert gid (newGadget gtype outputs connectors)) u gid
  · refine iff_of_false (fun hcomplete => ?_) fun hcomplete => ?_
    · exact (hcomplete gid hnew).1 ⟨_, lookup_insert _, rfl⟩
    · have hold := (connected_added_iff_of_isComplete _ _ hc ha hwired hu hcomplete gid).mp hnew
      exact hc.fresh ((hwired.mem_iff_of_connected hold).mp hu)
  · have hequivalence :=
      connected_equivalence (attached.insert gid (newGadget gtype outputs connectors))
    have hsame := connected_added_iff gtype outputs hc ha
      (fun hold => hnew (connected_added_of_connected _ _ hc ha hold)) fun c hcmem hold => hnew
        (hequivalence.trans (connected_added_of_connected _ _ hc ha hold)
          (hequivalence.symm (connected_added_peer _ _ hc ha hcmem)))
    rw [(wired_added _ _ hc ha hwired).isComplete_iff_weight hu', hwired.isComplete_iff_weight hu]
    refine forall_congr' fun v => imp_congr_ctx (hsame v) fun hv => ?_
    have hv' := (hsame v).mpr hv
    have hweight : weight (attached.insert gid (newGadget gtype outputs connectors)) v =
        weight gadgets v := by
      refine weight_added_of_notMem _ _ hc ha ?_ ?_
      · rintro rfl
        exact hnew hv'
      · intro hmem
        obtain ⟨c, hcmem, rfl⟩ := List.mem_map.mp hmem
        exact hnew (hequivalence.trans hv'
          (hequivalence.symm (connected_added_peer _ _ hc ha hcmem)))
    rw [hweight]

end Added

/-- The counters of all components are exact. -/
structure Consistent (coordinator : MonolithicCoordinator) : Prop where
  wired : Wired coordinator.gadgets
  tracks : coordinator.pendingSubgraphs.Tracks counters (unionIndex coordinator.gidToUnionIndex)
    coordinator.gadgets.keys.toFinset (Connected coordinator.gadgets) (weight coordinator.gadgets)
  indexed : ∀ gid ∈ coordinator.gadgets, gid ∈ coordinator.gidToUnionIndex
  receiver : ∀ {gid gadget}, coordinator.gadgets.lookup gid = some gadget →
    gadget.outcomes = none → gadget.receiver = true

theorem consistent_new (gadgetTypes : GidMap GadgetType) : Consistent (new gadgetTypes) where
  wired := ⟨by simp [new], by simp [new], by simp [new]⟩
  tracks := tracks_empty
  indexed := by simp [new]
  receiver := by simp [new]

theorem unionIndex_insert (indices : GidMap ℕ) (gid index : ℕ) :
    unionIndex (indices.insert gid index) = Function.update (unionIndex indices) gid index := by
  funext u
  rcases eq_or_ne u gid with rfl | hu
  · rw [unionIndex, lookup_insert, Function.update_self, getD_some]
  · rw [unionIndex, lookup_insert_ne hu, Function.update_of_ne hu, unionIndex]

theorem exists_addGadget_counters_eq {outputs connectors : ℕ} {node : MonolithicUnionNode}
    {sum : ℕ × ℕ} (hsum : sum + (0, connectors) = counters node + (1, outputs)) :
    ∃ node', node.addGadget outputs connectors = some node' ∧ counters node' = sum := by
  have hunloaded : sum.1 = node.numUnloadedGadgets + 1 := congrArg Prod.fst hsum
  have hunconnected : sum.2 + connectors = node.numUnconnectedOutputs + outputs :=
    congrArg Prod.snd hsum
  have hle : connectors ≤ node.numUnconnectedOutputs + outputs :=
    hunconnected ▸ Nat.le_add_left _ _
  refine ⟨{ node with
    numUnloadedGadgets := node.numUnloadedGadgets + 1
    numUnconnectedOutputs := node.numUnconnectedOutputs + outputs - connectors }, ?_,
    Prod.ext hunloaded.symm ?_⟩
  · rw [MonolithicUnionNode.addGadget, (guard_eq_some' ()).mpr hle]
    rfl
  · exact (Nat.eq_sub_of_add_eq hunconnected).symm

theorem Consistent.exists_addGadget_eq {coordinator : MonolithicCoordinator}
    (h : Consistent coordinator) {gid : ℕ} (gtype : ℕ) {gadgetType : GadgetType}
    {connectors : List Connector}
    (hc : Connectable coordinator.gadgets gid gadgetType.inputs.length connectors) :
    ∃ added attached, coordinator.addGadget gid gtype gadgetType connectors = some added ∧
      Consistent added ∧ added.subgraphCalls = coordinator.subgraphCalls ∧
      Attaches gid connectors.zipIdx coordinator.gadgets attached ∧ added.gadgets =
        attached.insert gid (newGadget gtype gadgetType.outputs.length connectors) := by
  have hfresh : gid ∉ coordinator.gadgets.keys.toFinset := fun hmem =>
    hc.fresh (mem_keys.mpr (List.mem_toFinset.mp hmem))
  have hlive : ∀ {u gadget}, coordinator.gadgets.lookup u = some gadget →
      u ∈ coordinator.gadgets ∧ u ∈ Insert.insert gid coordinator.gadgets.keys.toFinset := by
    intro u gadget hgadget
    have hmem := mem_of_lookup hgadget
    exact ⟨hmem, Finset.mem_insert_of_mem (List.mem_toFinset.mpr (mem_keys.mp hmem))⟩
  have hzero : counters MonolithicUnionNode.default = weight coordinator.gadgets gid := by
    rw [weight, lookup_eq_none.mpr hc.fresh]
    rfl
  -- The new gadget starts as a component of its own.
  have hinsert := h.tracks.insert hfresh (Relation.EqvGen.refl gid) (fun u hu => ?_) hzero
  swap
  · have hu' := mem_keys.mpr (List.mem_toFinset.mp hu)
    exact ⟨fun hold => hc.fresh ((h.wired.mem_iff_of_connected hold).mpr hu'),
      fun hold => hc.fresh ((h.wired.mem_iff_of_connected hold).mp hu')⟩
  rw [← unionIndex_insert] at hinsert
  let inserted : MonolithicCoordinator := { coordinator with
    pendingSubgraphs := (coordinator.pendingSubgraphs.insert .default).1
    gidToUnionIndex := coordinator.gidToUnionIndex.insert gid
      (coordinator.pendingSubgraphs.insert .default).2 }
  have hindex : unionIndex inserted.gidToUnionIndex gid =
      (coordinator.pendingSubgraphs.insert .default).2 := by
    rw [unionIndex_insert, Function.update_self]
  have hzip : connectors.zipIdx.map Prod.fst = connectors := List.zipIdx_map_fst 0 _
  have hfree : ∀ c ∈ connectors.zipIdx.map Prod.fst,
      c.gid ∈ Insert.insert gid coordinator.gadgets.keys.toFinset ∧
        c.gid ∈ inserted.gidToUnionIndex ∧ ∃ peer, inserted.gadgets.lookup c.gid = some peer ∧
          peer.outputs[c.port]? = some none := by
    intro c hcmem
    obtain ⟨peer, hpeer, hnone⟩ := hc.free c (hzip ▸ hcmem)
    exact ⟨(hlive hpeer).2, mem_insert _ |>.mpr (.inr (h.indexed _ (hlive hpeer).1)), peer,
      hpeer, hnone⟩
  have hinserted : inserted.pendingSubgraphs.Tracks counters (unionIndex inserted.gidToUnionIndex)
      (Insert.insert gid coordinator.gadgets.keys.toFinset) (Connected coordinator.gadgets)
      (weight coordinator.gadgets) := hinsert
  obtain ⟨uf, attached, hloop, hattaches, htracks⟩ := exists_foldlM_connectPort_eq
    (Finset.mem_insert_self _ _) connectors.zipIdx (hzip.symm ▸ hc.nodup)
    (connected_equivalence coordinator.gadgets) hinserted hfree
  have hgids : (connectors.zipIdx.map fun connection => connection.1.gid) =
      connectors.map Connector.gid := by
    conv_rhs => rw [← hzip, List.map_map]
    rfl
  rw [hgids, ← connected_added gtype gadgetType.outputs.length hc hattaches] at htracks
  have hequivalence := connected_equivalence
    (attached.insert gid (newGadget gtype gadgetType.outputs.length connectors))
  have hpeers := fun c hcmem =>
    connected_added_peer gtype gadgetType.outputs.length hc hattaches (c := c) hcmem
  -- The counters of the joined component are those of its new set of gadgets.
  obtain ⟨uf', node, hmodify, -, htracks'⟩ := htracks.exists_modify_eq
    (f := MonolithicUnionNode.addGadget gadgetType.outputs.length connectors.length)
    (v := weight (attached.insert gid (newGadget gtype gadgetType.outputs.length connectors)))
    hequivalence (Finset.mem_insert_self _ _)
    (fun node hnode => exists_addGadget_counters_eq (by
      rw [hnode]
      exact classSum_added _ _ hc hattaches ⟨Finset.mem_insert_self _ _, hequivalence.refl gid⟩
        fun c hcmem => ⟨(hfree c (hzip.symm ▸ hcmem)).1, hpeers c hcmem⟩))
    (fun b _ hb => classSum_added_of_not _ _ hc hattaches hequivalence hpeers hb)
  have hkeys : (attached.insert gid
      (newGadget gtype gadgetType.outputs.length connectors)).keys.toFinset =
        Insert.insert gid coordinator.gadgets.keys.toFinset := by
    ext u
    rw [List.mem_toFinset, ← mem_keys, mem_added_iff _ _ hattaches, Finset.mem_insert,
      List.mem_toFinset, ← mem_keys]
  refine ⟨{ inserted with
    pendingSubgraphs := uf'
    gadgets := attached.insert gid (newGadget gtype gadgetType.outputs.length connectors) },
    attached, ?_, ⟨wired_added _ _ hc hattaches h.wired, ?_, ?_, ?_⟩, rfl, hattaches, rfl⟩
  · rw [hindex] at hloop hmodify
    rw [addGadget, (guard_eq_some' ()).mpr hc.length]
    simp only [bind_eq_bind, bind_some]
    rw [hloop, bind_some]
    simp only [hmodify, bind_some]
    rfl
  · rw [hkeys]
    exact htracks'
  · intro u hu
    rcases (mem_added_iff _ _ hattaches u).mp hu with rfl | hold
    · exact (mem_insert _).mpr (.inl rfl)
    · exact (mem_insert _).mpr (.inr (h.indexed u hold))
  · intro u gadget' hgadget' hnone
    rcases eq_or_ne u gid with rfl | hu
    · rw [lookup_insert] at hgadget'
      obtain rfl := some_inj.mp hgadget'
      rfl
    · obtain ⟨gadget, hgadget⟩ := exists_of_lookup_added _ _ hattaches hu hgadget'
      obtain ⟨gadget'', hgadget'', -, houtcomes, hreceiver, -⟩ :=
        lookup_added_old gtype gadgetType.outputs.length hc hattaches hgadget
      obtain rfl := some_inj.mp (hgadget''.symm.trans hgadget')
      rw [hreceiver]
      exact h.receiver hgadget (houtcomes ▸ hnone)

def loadedGadget (gadget : MonolithicGadget) (outcomes : List Bool) : MonolithicGadget :=
  { gadget with outcomes := some outcomes, receiver := false }

section Loaded

variable {gadgets : GidMap MonolithicGadget} {gid : ℕ} {gadget : MonolithicGadget}
variable (hgadget : gadgets.lookup gid = some gadget) (outcomes : List Bool)

include hgadget

theorem mem_loaded_iff (u : ℕ) :
    u ∈ gadgets.insert gid (loadedGadget gadget outcomes) ↔ u ∈ gadgets := by
  rw [mem_insert]
  refine or_iff_right_of_imp ?_
  rintro rfl
  exact mem_of_lookup hgadget

theorem lookup_loaded {other : MonolithicGadget} (hother : gadgets.lookup u = some other) :
    ∃ other', (gadgets.insert gid (loadedGadget gadget outcomes)).lookup u = some other' ∧
      other'.connectors = other.connectors ∧ other'.outputs = other.outputs ∧
      (u ≠ gid → other' = other) := by
  rcases eq_or_ne u gid with rfl | hu
  · obtain rfl := some_inj.mp (hgadget.symm.trans hother)
    exact ⟨_, lookup_insert _, rfl, rfl, fun hne => absurd rfl hne⟩
  · exact ⟨other, (lookup_insert_ne hu).trans hother, rfl, rfl, fun _ => rfl⟩

theorem lookup_of_loaded {other' : MonolithicGadget}
    (hother' : (gadgets.insert gid (loadedGadget gadget outcomes)).lookup u = some other') :
    ∃ other, gadgets.lookup u = some other ∧ other'.connectors = other.connectors ∧
      other'.outputs = other.outputs ∧ (u ≠ gid → other' = other) := by
  obtain ⟨other, hother⟩ :=
    exists_lookup_of_mem ((mem_loaded_iff hgadget outcomes u).mp (mem_of_lookup hother'))
  obtain ⟨other'', hother'', hsame⟩ := lookup_loaded hgadget outcomes hother
  obtain rfl := some_inj.mp (hother''.symm.trans hother')
  exact ⟨other, hother, hsame⟩

theorem connected_loaded :
    Connected (gadgets.insert gid (loadedGadget gadget outcomes)) = Connected gadgets := by
  refine congrArg Relation.EqvGen (funext fun u => funext fun v => propext ?_)
  constructor
  · rintro ⟨other', hother', hv⟩
    obtain ⟨other, hother, hconnectors, -⟩ := lookup_of_loaded hgadget outcomes hother'
    exact ⟨other, hother, hconnectors ▸ hv⟩
  · rintro ⟨other, hother, hv⟩
    obtain ⟨other', hother', hconnectors, -⟩ := lookup_loaded hgadget outcomes hother
    exact ⟨other', hother', hconnectors ▸ hv⟩

theorem wired_loaded (hwired : Wired gadgets) :
    Wired (gadgets.insert gid (loadedGadget gadget outcomes)) where
  nodup {u other'} hother' := by
    obtain ⟨other, hother, hconnectors, -⟩ := lookup_of_loaded hgadget outcomes hother'
    exact hconnectors ▸ hwired.nodup hother
  peer {u other'} hother' c hmem := by
    obtain ⟨other, hother, hconnectors, -⟩ := lookup_of_loaded hgadget outcomes hother'
    obtain ⟨peer, port, hpeer, hentry⟩ := hwired.peer hother c (hconnectors ▸ hmem)
    obtain ⟨peer', hpeer', -, houtputs, -⟩ := lookup_loaded hgadget outcomes hpeer
    exact ⟨peer', port, hpeer', houtputs ▸ hentry⟩
  user {u other'} hother' port c hentry := by
    obtain ⟨other, hother, -, houtputs, -⟩ := lookup_of_loaded hgadget outcomes hother'
    obtain ⟨user, huser, hmem⟩ := hwired.user hother port c (houtputs ▸ hentry)
    obtain ⟨user', huser', hconnectors, -⟩ := lookup_loaded hgadget outcomes huser
    exact ⟨user', huser', hconnectors ▸ hmem⟩

omit hgadget in
theorem weight_loaded_of_ne (hu : u ≠ gid) :
    weight (gadgets.insert gid (loadedGadget gadget outcomes)) u = weight gadgets u := by
  rw [weight, lookup_insert_ne hu, weight]

theorem weight_loaded (hnone : gadget.outcomes = none) (u : ℕ) :
    weight gadgets u = weight (gadgets.insert gid (loadedGadget gadget outcomes)) u +
      if u = gid then (1, 0) else 0 := by
  rcases eq_or_ne u gid with rfl | hu
  · rw [weight, hgadget, weight, lookup_insert, if_pos rfl, elim_some, elim_some, if_pos hnone]
    simp [loadedGadget]
  · rw [if_neg hu, add_zero, weight_loaded_of_ne outcomes hu]

theorem classSum_loaded (hnone : gadget.outcomes = none) (hself : gid ∈ S ∧ r gid gid) :
    classSum S r (weight gadgets) gid =
      classSum S r (weight (gadgets.insert gid (loadedGadget gadget outcomes))) gid + (1, 0) := by
  classical
  have hnew : ∑ u ∈ S.filter (r gid), (if u = gid then ((1, 0) : ℕ × ℕ) else 0) = (1, 0) := by
    rw [Finset.sum_ite_eq', if_pos (Finset.mem_filter.mpr hself)]
  rw [classSum, classSum, ← hnew, ← Finset.sum_add_distrib]
  exact Finset.sum_congr rfl fun u _ => weight_loaded hgadget outcomes hnone u

theorem isComplete_loaded_iff (hwired : Wired gadgets) (hu : u ∈ gadgets)
    (hother : ¬ Connected gadgets u gid) :
    IsComplete (gadgets.insert gid (loadedGadget gadget outcomes)) u ↔ IsComplete gadgets u := by
  rw [(wired_loaded hgadget outcomes hwired).isComplete_iff_weight
    ((mem_loaded_iff hgadget outcomes u).mpr hu), hwired.isComplete_iff_weight hu,
    connected_loaded hgadget outcomes]
  refine forall_congr' fun v => imp_congr_right fun hv => ?_
  rw [weight_loaded_of_ne outcomes]
  rintro rfl
  exact hother hv

omit hgadget in
theorem not_isComplete_of_outcomes (hgadget : gadgets.lookup gid = some gadget)
    (hnone : gadget.outcomes = none) (hu : Connected gadgets u gid) : ¬ IsComplete gadgets u :=
  fun hcomplete => (hcomplete gid hu).1 ⟨gadget, hgadget, hnone⟩

end Loaded

theorem exists_loadGadget_counters_eq {node : MonolithicUnionNode} {sum : ℕ × ℕ}
    (hsum : counters node = sum + (1, 0)) :
    ∃ node', node.loadGadget = some node' ∧ counters node' = sum := by
  have hunloaded : node.numUnloadedGadgets = sum.1 + 1 := congrArg Prod.fst hsum
  have hunconnected : node.numUnconnectedOutputs = sum.2 := congrArg Prod.snd hsum
  refine ⟨{ node with numUnloadedGadgets := node.numUnloadedGadgets - 1 }, ?_,
    Prod.ext ?_ hunconnected⟩
  · rw [MonolithicUnionNode.loadGadget, (guard_eq_some' ()).mpr (hunloaded ▸ Nat.le_add_left _ _)]
    rfl
  · exact Nat.sub_eq_of_eq_add hunloaded

theorem Consistent.exists_loadOutcomes_eq {coordinator : MonolithicCoordinator}
    (h : Consistent coordinator) {gid : ℕ} {gadget : MonolithicGadget}
    (hgadget : coordinator.gadgets.lookup gid = some gadget) (hnone : gadget.outcomes = none)
    (outcomes : List Bool) :
    ∃ loaded isFinal, coordinator.loadOutcomes gid gadget outcomes = some (loaded, isFinal) ∧
      Consistent loaded ∧
      loaded.gadgets = coordinator.gadgets.insert gid (loadedGadget gadget outcomes) ∧
      loaded.subgraphCalls = coordinator.subgraphCalls ++
        (if isFinal then [⟨gid, .called⟩] else []) ∧
      (isFinal = true ↔ IsComplete loaded.gadgets gid) := by
  have hmem := mem_of_lookup hgadget
  have hlive : gid ∈ coordinator.gadgets.keys.toFinset :=
    List.mem_toFinset.mpr (mem_keys.mp hmem)
  have hequivalence := connected_equivalence coordinator.gadgets
  obtain ⟨index, hindex⟩ := exists_lookup_of_mem (h.indexed gid hmem)
  obtain ⟨uf, node, hmodify, hnode, htracks⟩ := h.tracks.exists_modify_eq
    (f := MonolithicUnionNode.loadGadget)
    (v := weight (coordinator.gadgets.insert gid (loadedGadget gadget outcomes)))
    hequivalence hlive
    (fun node hnode => exists_loadGadget_counters_eq (hnode.trans
      (classSum_loaded hgadget outcomes hnone ⟨hlive, hequivalence.refl gid⟩)))
    (fun b _ hb => classSum_congr (fun _ _ => Iff.rfl) fun u _ hbu =>
      weight_loaded_of_ne outcomes fun heq => hb (heq ▸ hequivalence.symm hbu))
  have hkeys : (coordinator.gadgets.insert gid (loadedGadget gadget outcomes)).keys.toFinset =
      coordinator.gadgets.keys.toFinset := by
    ext u
    rw [List.mem_toFinset, ← mem_keys, mem_loaded_iff hgadget, List.mem_toFinset, ← mem_keys]
  have hwired := wired_loaded hgadget outcomes h.wired
  rw [unionIndex, hindex, getD_some] at hmodify
  refine ⟨{ coordinator with
    pendingSubgraphs := uf
    gadgets := coordinator.gadgets.insert gid (loadedGadget gadget outcomes)
    subgraphCalls := coordinator.subgraphCalls ++
      if node.isComplete then [⟨gid, .called⟩] else [] }, node.isComplete, ?_,
    ⟨hwired, ?_, ?_, ?_⟩, rfl, rfl, ?_⟩
  · rw [loadOutcomes, hindex]
    simp only [bind_eq_bind, bind_some, hmodify, (guard_eq_some' ()).mpr (h.receiver hgadget hnone)]
    rfl
  · rw [hkeys, connected_loaded hgadget outcomes]
    exact htracks
  · intro u hu
    exact h.indexed u ((mem_loaded_iff hgadget outcomes u).mp hu)
  · intro u other' hother' hother'None
    obtain ⟨other, hother, -, -, hsame⟩ := lookup_of_loaded hgadget outcomes hother'
    rcases eq_or_ne u gid with rfl | hu
    · rw [lookup_insert] at hother'
      obtain rfl := some_inj.mp hother'
      cases hother'None
    · obtain rfl := hsame hu
      exact h.receiver hother hother'None
  · rw [hwired.isComplete_iff ((mem_loaded_iff hgadget outcomes gid).mpr hmem), hkeys,
      connected_loaded hgadget outcomes, ← hnode, MonolithicUnionNode.isComplete,
      decide_eq_true_iff, counters, Prod.mk_eq_zero]

end MonolithicCoordinator

end QdkEc
