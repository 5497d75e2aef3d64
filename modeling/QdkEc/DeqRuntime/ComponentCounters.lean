import QdkEc.DeqRuntime.MonolithicCoordinator

/-!
# Counters of connected components

This module states what the counters of a component count and shows that executing a
gadget and loading its outcomes keep them exact: the gadgets of a component without
outcomes, and the outputs of its gadgets to which no gadget is connected.
-/

namespace QdkEc

open Finset Option

namespace MonolithicCoordinator

variable {gid : ℕ}

theorem mem_of_lookup {A : Type} {map : GidMap A} {a : A} (h : map.lookup gid = some a) :
    gid ∈ map :=
  AList.lookup_isSome.mp (h ▸ rfl)

theorem exists_lookup_of_mem {A : Type} {map : GidMap A} (h : gid ∈ map) :
    ∃ a, map.lookup gid = some a :=
  isSome_iff_exists.mp (AList.lookup_isSome.mpr h)

/-- A gadget has an input that is connected to an output of another one. -/
def Adjacent (gadgets : GidMap MonolithicGadget) (u v : ℕ) : Prop :=
  ∃ gadget, gadgets.lookup u = some gadget ∧ v ∈ gadget.connectors.map Connector.gid

/-- Two gadgets are in one component. -/
def Connected (gadgets : GidMap MonolithicGadget) : ℕ → ℕ → Prop :=
  Relation.EqvGen (Adjacent gadgets)

/-- A gadget without outcomes. -/
def IsUnloaded (gadgets : GidMap MonolithicGadget) (gid : ℕ) : Prop :=
  ∃ gadget, gadgets.lookup gid = some gadget ∧ gadget.outcomes = none

/-- An output to which no gadget is connected. -/
def IsUnconnected (gadgets : GidMap MonolithicGadget) (gid port : ℕ) : Prop :=
  (∃ gadget, gadgets.lookup gid = some gadget ∧ port < gadget.outputs.length) ∧
    ∀ v gadget, gadgets.lookup v = some gadget → ⟨gid, port⟩ ∉ gadget.connectors

/-- All gadgets of a component are loaded, and all their outputs are connected. -/
def IsComplete (gadgets : GidMap MonolithicGadget) (gid : ℕ) : Prop :=
  ∀ u, Connected gadgets gid u → ¬ IsUnloaded gadgets u ∧ ∀ port, ¬ IsUnconnected gadgets u port

open scoped Classical in
noncomputable def unloadedGadgets (gadgets : GidMap MonolithicGadget) (gid : ℕ) : Finset ℕ :=
  gadgets.keys.toFinset.filter fun u => Connected gadgets gid u ∧ IsUnloaded gadgets u

open scoped Classical in
noncomputable def unconnectedOutputs (gadgets : GidMap MonolithicGadget) (gid : ℕ) :
    Finset ((_ : ℕ) × ℕ) :=
  (gadgets.keys.toFinset.filter (Connected gadgets gid)).sigma fun u =>
    (Finset.range ((gadgets.lookup u).elim 0 fun gadget => gadget.outputs.length)).filter
      (IsUnconnected gadgets u)

/-- The measure of counters. -/
def counters (node : MonolithicUnionNode) : ℕ × ℕ :=
  (node.numUnloadedGadgets, node.numUnconnectedOutputs)

/-- What one gadget adds to the counters of its component. -/
def weight (gadgets : GidMap MonolithicGadget) (gid : ℕ) : ℕ × ℕ :=
  (gadgets.lookup gid).elim 0 fun gadget =>
    (if gadget.outcomes = none then 1 else 0, gadget.outputs.count none)

/-- The index of a gadget in the forest. -/
def unionIndex (indices : GidMap ℕ) (gid : ℕ) : ℕ :=
  (indices.lookup gid).getD 0

/-- The connections that gadgets store agree. -/
structure Wired (gadgets : GidMap MonolithicGadget) : Prop where
  nodup : ∀ {u gadget}, gadgets.lookup u = some gadget → gadget.connectors.Nodup
  peer : ∀ {u gadget}, gadgets.lookup u = some gadget → ∀ c ∈ gadget.connectors,
    ∃ peer port, gadgets.lookup c.gid = some peer ∧ peer.outputs[c.port]? = some (some ⟨u, port⟩)
  user : ∀ {u gadget}, gadgets.lookup u = some gadget → ∀ (port : ℕ) c,
    gadget.outputs[port]? = some (some c) →
      ∃ user, gadgets.lookup c.gid = some user ∧ ⟨u, port⟩ ∈ user.connectors

theorem connected_equivalence (gadgets : GidMap MonolithicGadget) :
    Equivalence (Connected gadgets) :=
  Relation.EqvGen.is_equivalence _

section Wired

variable {gadgets : GidMap MonolithicGadget} (h : Wired gadgets)

include h

theorem Wired.mem_iff_of_connected {u v : ℕ} (huv : Connected gadgets u v) :
    u ∈ gadgets ↔ v ∈ gadgets := by
  induction huv with
  | rel u v huv =>
    obtain ⟨gadget, hgadget, hv⟩ := huv
    obtain ⟨c, hc, rfl⟩ := List.mem_map.mp hv
    obtain ⟨peer, -, hpeer, -⟩ := h.peer hgadget c hc
    exact ⟨fun _ => mem_of_lookup hpeer, fun _ => mem_of_lookup hgadget⟩
  | refl u => exact Iff.rfl
  | symm u v _ ih => exact ih.symm
  | trans u v w _ _ ih ih' => exact ih.trans ih'

theorem Wired.isUnconnected_iff {u : ℕ} {gadget : MonolithicGadget}
    (hgadget : gadgets.lookup u = some gadget) (port : ℕ) :
    IsUnconnected gadgets u port ↔ gadget.outputs[port]? = some none := by
  constructor
  · rintro ⟨⟨gadget', hgadget', hport⟩, hnone⟩
    obtain rfl := some_inj.mp (hgadget'.symm.trans hgadget)
    rw [List.getElem?_eq_getElem hport]
    cases hentry : gadget'.outputs[port] with
    | none => rfl
    | some c =>
      have hentry' : gadget'.outputs[port]? = some (some c) := by
        rw [List.getElem?_eq_getElem hport, hentry]
      obtain ⟨user, huser, hmem⟩ := h.user hgadget port c hentry'
      exact absurd hmem (hnone c.gid user huser)
  · intro hnone
    refine ⟨⟨gadget, hgadget, (List.getElem?_eq_some_iff.mp hnone).1⟩, fun v user huser hmem => ?_⟩
    obtain ⟨peer, port', hpeer, hentry⟩ := h.peer huser _ hmem
    obtain rfl := some_inj.mp (hpeer.symm.trans hgadget)
    rw [hnone] at hentry
    cases hentry

end Wired

theorem card_filter_getElem?_eq_none {A : Type*} [DecidableEq A] (l : List (Option A)) :
    ((Finset.range l.length).filter fun i => l[i]? = some none).card = l.count none := by
  induction l using List.reverseRecOn with
  | nil => rfl
  | append_singleton l a ih =>
    have hfilter : (Finset.range l.length).filter (fun i => (l ++ [a])[i]? = some none) =
        (Finset.range l.length).filter fun i => l[i]? = some none := by
      refine filter_congr fun i hi => ?_
      rw [List.getElem?_append_left (mem_range.mp hi)]
    rw [List.length_append, List.length_singleton, range_add_one, filter_insert,
      hfilter, List.count_append, ← ih, List.getElem?_concat_length]
    by_cases ha : a = none
    · rw [if_pos (congrArg some ha), card_insert_of_notMem (by simp), ha]
      simp
    · rw [if_neg fun heq => ha (some_inj.mp heq), List.count_singleton,
        if_neg (by simpa using ha)]
      rfl

variable {gadgets : GidMap MonolithicGadget}

theorem Wired.classSum_weight (h : Wired gadgets) (gid : ℕ) :
    UnionFind.classSum gadgets.keys.toFinset (Connected gadgets) (weight gadgets) gid =
      ((unloadedGadgets gadgets gid).card, (unconnectedOutputs gadgets gid).card) := by
  classical
  have hmem : ∀ u ∈ gadgets.keys.toFinset.filter (Connected gadgets gid),
      ∃ gadget, gadgets.lookup u = some gadget := by
    intro u hu
    rw [mem_filter, List.mem_toFinset] at hu
    exact exists_lookup_of_mem (AList.mem_keys.mp hu.1)
  refine Prod.ext ?_ ?_
  · rw [UnionFind.classSum, Prod.fst_sum, unloadedGadgets,
      ← filter_filter (Connected gadgets gid) (IsUnloaded gadgets),
      card_filter]
    refine sum_congr rfl fun u hu => ?_
    obtain ⟨gadget, hgadget⟩ := hmem u hu
    have hiff : IsUnloaded gadgets u ↔ gadget.outcomes = none := by simp [IsUnloaded, hgadget]
    rw [weight, hgadget, elim_some]
    exact if_congr hiff.symm rfl rfl
  · rw [UnionFind.classSum, Prod.snd_sum, unconnectedOutputs, card_sigma]
    refine sum_congr rfl fun u hu => ?_
    obtain ⟨gadget, hgadget⟩ := hmem u hu
    have hfilter : (Finset.range gadget.outputs.length).filter
        (fun port => gadget.outputs[port]? = some none) =
          (Finset.range gadget.outputs.length).filter (IsUnconnected gadgets u) :=
      filter_congr fun port _ => (h.isUnconnected_iff hgadget port).symm
    rw [weight, hgadget, elim_some, ← card_filter_getElem?_eq_none, hfilter, elim_some]

theorem Wired.mem_keys_of_connected (h : Wired gadgets)
    (hgid : gid ∈ gadgets) (u : ℕ) (hu : Connected gadgets gid u) : u ∈ gadgets.keys.toFinset :=
  List.mem_toFinset.mpr (AList.mem_keys.mpr ((h.mem_iff_of_connected hu).mp hgid))

theorem Wired.isComplete_iff (h : Wired gadgets)
    (hgid : gid ∈ gadgets) : IsComplete gadgets gid ↔
      UnionFind.classSum gadgets.keys.toFinset (Connected gadgets) (weight gadgets) gid = 0 := by
  classical
  have hlive := h.mem_keys_of_connected hgid
  rw [h.classSum_weight, Prod.mk_eq_zero, card_eq_zero, card_eq_zero,
    eq_empty_iff_forall_notMem, eq_empty_iff_forall_notMem]
  constructor
  · intro hcomplete
    refine ⟨fun u hu => ?_, fun output houtput => ?_⟩
    · rw [unloadedGadgets, mem_filter] at hu
      exact (hcomplete u hu.2.1).1 hu.2.2
    · rw [unconnectedOutputs, mem_sigma, mem_filter, mem_filter] at houtput
      exact (hcomplete output.1 houtput.1.2).2 output.2 houtput.2.2
  · rintro ⟨hunloaded, hunconnected⟩ u hu
    refine ⟨fun hnone => hunloaded u ?_, fun port hport => hunconnected ⟨u, port⟩ ?_⟩
    · rw [unloadedGadgets, mem_filter]
      exact ⟨hlive u hu, hu, hnone⟩
    · rw [unconnectedOutputs, mem_sigma, mem_filter, mem_filter]
      obtain ⟨gadget, hgadget, hlt⟩ := hport.1
      refine ⟨⟨hlive u hu, hu⟩, ?_, hport⟩
      rw [mem_range, hgadget]
      exact hlt

theorem Wired.isComplete_iff_weight (h : Wired gadgets)
    (hgid : gid ∈ gadgets) :
    IsComplete gadgets gid ↔ ∀ u, Connected gadgets gid u → weight gadgets u = 0 := by
  classical
  have hlive := h.mem_keys_of_connected hgid
  rw [h.isComplete_iff hgid, UnionFind.classSum, sum_eq_zero_iff]
  constructor
  · intro hzero u hu
    exact hzero u (mem_filter.mpr ⟨hlive u hu, hu⟩)
  · intro hzero u hu
    exact hzero u (mem_filter.mp hu).2

/-- What connecting ports to a new gadget changes: the peers of the ports are told, each at a free
output. -/
structure Attaches (gid : ℕ) (connections : List (Connector × ℕ))
    (gadgets gadgets' : GidMap MonolithicGadget) :
    Prop where
  mem_iff : ∀ u, u ∈ gadgets' ↔ u ∈ gadgets
  gadget : ∀ {u gadget}, gadgets.lookup u = some gadget →
    ∃ gadget', gadgets'.lookup u = some gadget' ∧ gadget'.connectors = gadget.connectors ∧
      gadget'.outcomes = gadget.outcomes ∧ gadget'.receiver = gadget.receiver ∧
      (∀ (port : ℕ) c, gadget'.outputs[port]? = some (some c) ↔
        gadget.outputs[port]? = some (some c) ∨ c.gid = gid ∧ (⟨u, port⟩, c.port) ∈ connections) ∧
      gadget'.outputs.count none + (connections.map fun connection => connection.1.gid).count u =
        gadget.outputs.count none

theorem attaches_nil (gid : ℕ) (gadgets : GidMap MonolithicGadget) :
    Attaches gid [] gadgets gadgets where
  mem_iff _ := Iff.rfl
  gadget hgadget := ⟨_, hgadget, rfl, rfl, rfl, by simp, by simp⟩

theorem count_none_set {A : Type*} [DecidableEq A] {l : List (Option A)} {i : ℕ}
    (hi : l[i]? = some none) (a : A) : (l.set i (some a)).count none + 1 = l.count none := by
  obtain ⟨hlt, hget⟩ := List.getElem?_eq_some_iff.mp hi
  have hpos : 0 < l.count none := List.count_pos_iff.mpr (List.mem_of_getElem? hi)
  rw [List.count_set hlt, hget]
  simp
  omega

theorem attaches_insert (gid : ℕ) {connection : Connector × ℕ}
    {peer : MonolithicGadget} (hpeer : gadgets.lookup connection.1.gid = some peer)
    (hfree : peer.outputs[connection.1.port]? = some none) :
    Attaches gid [connection] gadgets (gadgets.insert connection.1.gid { peer with
      outputs := peer.outputs.set connection.1.port (some ⟨gid, connection.2⟩) }) where
  mem_iff u := by
    rw [AList.mem_insert]
    refine or_iff_right_of_imp ?_
    rintro rfl
    exact mem_of_lookup hpeer
  gadget {u gadget} hgadget := by
    obtain ⟨⟨v, port⟩, index⟩ := connection
    rcases eq_or_ne u v with rfl | hu
    · obtain rfl := some_inj.mp (hgadget.symm.trans hpeer)
      refine ⟨_, AList.lookup_insert _, rfl, rfl, rfl, fun port' c => ?_, ?_⟩
      · change (gadget.outputs.set port (some ⟨gid, index⟩))[port']? = _ ↔ _
        rw [List.mem_singleton, Prod.mk.injEq, Connector.mk.injEq]
        rcases eq_or_ne port' port with rfl | hport
        · rw [List.getElem?_set_self (List.getElem?_eq_some_iff.mp hfree).1, hfree,
            some_inj, some_inj]
          obtain ⟨cgid, cport⟩ := c
          rw [Connector.mk.injEq]
          simp [eq_comm]
        · rw [List.getElem?_set_ne hport.symm]
          simp [hport]
      · change (gadget.outputs.set port (some ⟨gid, index⟩)).count none + _ = _
        rw [← count_none_set hfree ⟨gid, index⟩]
        simp
    · refine
        ⟨gadget, (AList.lookup_insert_ne hu).trans hgadget, rfl, rfl, rfl, fun port' c => ?_, ?_⟩
      · rw [List.mem_singleton, Prod.mk.injEq, Connector.mk.injEq]
        simp [hu]
      · simp [hu.symm]

theorem Attaches.trans {connections connections' : List (Connector × ℕ)}
    {gadgets' gadgets'' : GidMap MonolithicGadget}
    (h : Attaches gid connections gadgets gadgets')
    (h' : Attaches gid connections' gadgets' gadgets'') :
    Attaches gid (connections ++ connections') gadgets gadgets'' where
  mem_iff u := (h'.mem_iff u).trans (h.mem_iff u)
  gadget {u gadget} hgadget := by
    obtain ⟨gadget₁, hgadget₁, hconnectors₁, houtcomes₁, hreceiver₁, houtputs₁, hcount₁⟩ :=
      h.gadget hgadget
    obtain ⟨gadget₂, hgadget₂, hconnectors₂, houtcomes₂, hreceiver₂, houtputs₂, hcount₂⟩ :=
      h'.gadget hgadget₁
    refine ⟨gadget₂, hgadget₂, hconnectors₂.trans hconnectors₁, houtcomes₂.trans houtcomes₁,
      hreceiver₂.trans hreceiver₁, fun port c => ?_, ?_⟩
    · rw [houtputs₂, houtputs₁, List.mem_append]
      tauto
    · rw [List.map_append, List.count_append]
      omega

theorem Attaches.free {connections : List (Connector × ℕ)}
    {gadgets' : GidMap MonolithicGadget} (h : Attaches gid connections gadgets gadgets')
    {c : Connector} (hc : c ∉ connections.map Prod.fst) {peer : MonolithicGadget}
    (hpeer : gadgets.lookup c.gid = some peer) (hfree : peer.outputs[c.port]? = some none)
    (hlength : ∀ {u gadget gadget'}, gadgets.lookup u = some gadget →
      gadgets'.lookup u = some gadget' → gadget'.outputs.length = gadget.outputs.length) :
    ∃ peer', gadgets'.lookup c.gid = some peer' ∧ peer'.outputs[c.port]? = some none := by
  obtain ⟨peer', hpeer', -, -, -, houtputs, -⟩ := h.gadget hpeer
  refine ⟨peer', hpeer', ?_⟩
  have hlt : c.port < peer'.outputs.length := by
    rw [hlength hpeer hpeer']
    exact (List.getElem?_eq_some_iff.mp hfree).1
  rw [List.getElem?_eq_getElem hlt]
  cases hentry : peer'.outputs[c.port] with
  | none => rfl
  | some user =>
    have hentry' : peer'.outputs[c.port]? = some (some user) := by
      rw [List.getElem?_eq_getElem hlt, hentry]
    rcases (houtputs c.port user).mp hentry' with hold | ⟨-, hmem⟩
    · rw [hfree] at hold
      cases hold
    · exact absurd (List.mem_map.mpr ⟨_, hmem, rfl⟩) hc

/-- The loop over the connectors joins the components of the peers and tells them. -/
theorem exists_foldlM_connectPort_eq {S : Finset ℕ} (hgid : gid ∈ S) {w : ℕ → ℕ × ℕ}
    (connections : List (Connector × ℕ)) (hnodup : (connections.map Prod.fst).Nodup)
    {coordinator : MonolithicCoordinator} {r : ℕ → ℕ → Prop} (hr : Equivalence r)
    (htracks : coordinator.pendingSubgraphs.Tracks counters
      (unionIndex coordinator.gidToUnionIndex) S r w)
    (hfree : ∀ c ∈ connections.map Prod.fst, c.gid ∈ S ∧ c.gid ∈ coordinator.gidToUnionIndex ∧
      ∃ peer, coordinator.gadgets.lookup c.gid = some peer ∧ peer.outputs[c.port]? = some none) :
    ∃ uf gadgets, connections.foldlM
        (connectPort gid (unionIndex coordinator.gidToUnionIndex gid)) coordinator =
        some { coordinator with pendingSubgraphs := uf, gadgets := gadgets } ∧
      Attaches gid connections coordinator.gadgets gadgets ∧
      uf.Tracks counters (unionIndex coordinator.gidToUnionIndex) S
        (UnionFind.joinAll r gid (connections.map fun connection => connection.1.gid)) w := by
  induction connections generalizing coordinator r with
  | nil => exact ⟨_, _, rfl, attaches_nil gid _, htracks⟩
  | cons connection connections ih =>
    rw [List.map_cons, List.nodup_cons] at hnodup
    obtain ⟨hmem, hindexed, peer, hpeer, hnone⟩ := hfree connection.1 (by simp)
    obtain ⟨index, hindex⟩ := exists_lookup_of_mem hindexed
    have hmerge : ∀ x y, counters (MonolithicUnionNode.union x y).2 = counters x + counters y :=
      fun _ _ => rfl
    obtain ⟨uf, joined, hunion, hjoin⟩ := htracks.exists_union_eq hr hmerge hgid hmem
    have hpeerIndex : unionIndex coordinator.gidToUnionIndex connection.1.gid = index := by
      rw [unionIndex, hindex, getD_some]
    rw [hpeerIndex] at hunion
    have hattaches := attaches_insert gid hpeer hnone
    have hlength : ∀ {u gadget gadget'}, coordinator.gadgets.lookup u = some gadget →
        (coordinator.gadgets.insert connection.1.gid { peer with
          outputs := peer.outputs.set connection.1.port
            (some ⟨gid, connection.2⟩) }).lookup u = some gadget' →
          gadget'.outputs.length = gadget.outputs.length := by
      intro u gadget gadget' hgadget hgadget'
      rcases eq_or_ne u connection.1.gid with rfl | hu
      · rw [AList.lookup_insert] at hgadget'
        obtain rfl := some_inj.mp hgadget'
        obtain rfl := some_inj.mp (hgadget.symm.trans hpeer)
        exact List.length_set
      · rw [AList.lookup_insert_ne hu] at hgadget'
        obtain rfl := some_inj.mp (hgadget.symm.trans hgadget')
        rfl
    let next : MonolithicCoordinator := { coordinator with
      pendingSubgraphs := uf
      gadgets := coordinator.gadgets.insert connection.1.gid { peer with
        outputs := peer.outputs.set connection.1.port (some ⟨gid, connection.2⟩) } }
    have hfree' : ∀ c ∈ connections.map Prod.fst, c.gid ∈ S ∧ c.gid ∈ next.gidToUnionIndex ∧
        ∃ peer, next.gadgets.lookup c.gid = some peer ∧ peer.outputs[c.port]? = some none := by
      intro c hc
      obtain ⟨hcmem, hcindexed, other, hother, hotherFree⟩ :=
        hfree c (List.mem_cons_of_mem _ hc)
      refine ⟨hcmem, hcindexed, hattaches.free ?_ hother hotherFree hlength⟩
      rw [List.map_singleton, List.mem_singleton]
      rintro rfl
      exact hnodup.1 hc
    have hjoin' : next.pendingSubgraphs.Tracks counters (unionIndex next.gidToUnionIndex) S
        (UnionFind.Join r gid connection.1.gid) w := hjoin
    obtain ⟨uf', gadgets', hrest, hattaches', htracks'⟩ := ih hnodup.2
      (UnionFind.join_equivalence hr gid connection.1.gid) hjoin' hfree'
    refine ⟨uf', gadgets', ?_, hattaches.trans hattaches', htracks'⟩
    rw [List.foldlM_cons, connectPort, hpeer]
    simp only [bind_eq_bind, bind_some, (guard_eq_some' ()).mpr hnone, hindex, hunion]
    exact hrest

end MonolithicCoordinator

end QdkEc
