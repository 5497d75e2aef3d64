import QdkEc.DeqRuntime.SubgraphSearch
import QdkEc.Lib.OptionTraversal

/-!
# Decoding components

This module follows the calls that decode components through all runs of the
coordinator.  A component is decoded by one call: the load that completes the component
makes it, and nothing is added to the component until the call takes it out.
-/

namespace QdkEc

open List

namespace MonolithicCoordinator

/-- A call that has not taken its component yet. -/
def Pending (coordinator : MonolithicCoordinator) (index gid : ℕ) : Prop :=
  ∃ stage, coordinator.subgraphCalls[index]? = some ⟨gid, stage⟩ ∧
    ∀ subgraph, stage ≠ .taken subgraph

/-- The pending calls and the complete components belong together. -/
structure Serves (coordinator : MonolithicCoordinator) : Prop where
  live : ∀ {index gid : ℕ}, Pending coordinator index gid →
    gid ∈ coordinator.gadgets ∧ IsComplete coordinator.gadgets gid
  gathered : ∀ {index gid : ℕ} {subgraph : List ℕ},
    coordinator.subgraphCalls[index]? = some ⟨gid, .gathered subgraph⟩ →
      subgraph.Nodup ∧ ∀ u, u ∈ subgraph ↔ Connected coordinator.gadgets gid u
  distinct : ∀ {i j u v : ℕ}, Pending coordinator i u → Pending coordinator j v →
    Connected coordinator.gadgets u v → i = j
  complete : ∀ gid ∈ coordinator.gadgets, IsComplete coordinator.gadgets gid →
    ∃ index u, Pending coordinator index u ∧ Connected coordinator.gadgets gid u

theorem serves_new (gadgetTypes : GidMap GadgetType) : Serves (new gadgetTypes) where
  live := by simp [new, Pending]
  gathered := by simp [new]
  distinct := by simp [new, Pending]
  complete := by simp [new]

variable {coordinator next : MonolithicCoordinator}

theorem pending_append_iff {gid : ℕ}
    (hcalls : next.subgraphCalls = coordinator.subgraphCalls ++ [⟨gid, .called⟩]) {i u : ℕ} :
    Pending next i u ↔
      Pending coordinator i u ∨ i = coordinator.subgraphCalls.length ∧ u = gid := by
  rw [Pending, hcalls, Pending]
  rcases Nat.lt_trichotomy i coordinator.subgraphCalls.length with hlt | rfl | hgt
  · rw [getElem?_append_left hlt]
    exact (or_iff_left fun hnew => Nat.ne_of_lt hlt hnew.1).symm
  · rw [getElem?_concat_length, getElem?_eq_none le_rfl]
    constructor
    · rintro ⟨stage, hcall, -⟩
      cases hcall
      exact .inr ⟨rfl, rfl⟩
    · rintro (⟨stage, hcall, -⟩ | ⟨-, rfl⟩)
      · cases hcall
      · exact ⟨.called, rfl, fun subgraph => nofun⟩
  · rw [getElem?_eq_none (Nat.le_of_lt hgt), getElem?_eq_none]
    · simp [Nat.ne_of_gt hgt]
    · rw [length_append]
      exact hgt

theorem pending_set_iff_of_ne {index : ℕ}
    {call : SubgraphCall} (hcalls : next.subgraphCalls = coordinator.subgraphCalls.set index call)
    {i u : ℕ} (hi : i ≠ index) : Pending next i u ↔ Pending coordinator i u := by
  rw [Pending, hcalls, getElem?_set_ne hi.symm, Pending]

theorem pending_set_iff {index gid : ℕ}
    {stage : SubgraphStage}
    (hcalls : next.subgraphCalls = coordinator.subgraphCalls.set index ⟨gid, stage⟩)
    (hindex : index < coordinator.subgraphCalls.length) {u : ℕ} :
    Pending next index u ↔ u = gid ∧ ∀ subgraph, stage ≠ .taken subgraph := by
  rw [Pending, hcalls, getElem?_set_self hindex]
  constructor
  · rintro ⟨stage', hcall, hnot⟩
    cases hcall
    exact ⟨rfl, hnot⟩
  · rintro ⟨rfl, hnot⟩
    exact ⟨stage, rfl, hnot⟩

/-- An event that is part of a valid sequence: the connectors of a new gadget are different free
outputs, one for each input, and an identifier that is asked for is not in use; a component is
gathered once, and it is taken after it is gathered. -/
def Admits (coordinator : MonolithicCoordinator) : Event → Prop
  | .execute gid gtype connectors => (gid ≠ 0 → gid ∉ coordinator.gadgets) ∧
      ∀ gadgetType, coordinator.gadgetTypes.lookup gtype = some gadgetType →
        connectors.length = gadgetType.inputs.length ∧ connectors.Nodup ∧
          ∀ c ∈ connectors, ∃ peer, coordinator.gadgets.lookup c.gid = some peer ∧
            peer.outputs[c.port]? = some none
  | .decode _ _ _ _ => True
  | .gather index => ∃ gid, coordinator.subgraphCalls[index]? = some ⟨gid, .called⟩
  | .take index => ∃ gid subgraph,
      coordinator.subgraphCalls[index]? = some ⟨gid, .gathered subgraph⟩

/-- A valid sequence of events. -/
def Admitted (coordinator : MonolithicCoordinator) : List Event → Prop
  | [] => True
  | event :: events => Admits coordinator event ∧
      ∀ next, coordinator.step event = some next → Admitted next events

/-- What an event does to the components: the load that completes a component calls for its
decoding, and only taking the component of such a call removes gadgets, namely all gadgets of the
component and no other one. -/
def Effect (coordinator : MonolithicCoordinator) : Event → MonolithicCoordinator → Prop
  | .execute _ _ _, next => (∀ u ∈ coordinator.gadgets, u ∈ next.gadgets) ∧
      next.subgraphCalls = coordinator.subgraphCalls
  | .decode gid _ _ _, next => (∀ u, u ∈ next.gadgets ↔ u ∈ coordinator.gadgets) ∧
      (next.subgraphCalls = coordinator.subgraphCalls ∧
          (∀ u ∈ coordinator.gadgets, IsComplete next.gadgets u →
            IsComplete coordinator.gadgets u) ∨
        next.subgraphCalls = coordinator.subgraphCalls ++ [⟨gid, .called⟩] ∧
          gid ∈ coordinator.gadgets ∧ ¬ IsComplete coordinator.gadgets gid ∧
            IsComplete next.gadgets gid)
  | .gather index, next => next.gadgets = coordinator.gadgets ∧
      ∃ gid subgraph, coordinator.subgraphCalls[index]? = some ⟨gid, .called⟩ ∧
        next.subgraphCalls = coordinator.subgraphCalls.set index ⟨gid, .gathered subgraph⟩
  | .take index, next => ∃ gid subgraph,
      coordinator.subgraphCalls[index]? = some ⟨gid, .gathered subgraph⟩ ∧
        next.subgraphCalls = coordinator.subgraphCalls.set index ⟨gid, .taken subgraph⟩ ∧
          gid ∈ coordinator.gadgets ∧ IsComplete coordinator.gadgets gid ∧
            ∀ u, u ∈ next.gadgets ↔
              u ∈ coordinator.gadgets ∧ ¬ Connected coordinator.gadgets gid u

theorem acceptOutcomes_eq_ok {gid : ℕ}
    {rejected : Option CoordinatorError} {outcomes lossMask : Option (List Bool)}
    {accepted : MonolithicGadget × List Bool}
    (haccept : coordinator.acceptOutcomes gid rejected outcomes lossMask = .ok accepted) :
    coordinator.gadgets.lookup gid = some accepted.1 ∧ accepted.1.outcomes = none := by
  obtain ⟨-, -, haccept⟩ := exists_of_bind_eq_ok haccept
  obtain ⟨gadget, hgadget, haccept⟩ := exists_of_bind_eq_ok haccept
  have hgadget' : coordinator.gadgets.lookup gid = some gadget := by
    cases hlookup : coordinator.gadgets.lookup gid with
    | none =>
      rw [hlookup] at hgadget
      cases hgadget
    | some other =>
      rw [hlookup] at hgadget
      exact congrArg some (Except.ok.inj hgadget)
  have haccepted : gadget.outcomes.isSome = false ∧ accepted.1 = gadget := by
    by_cases houtcomes : gadget.outcomes.isSome = true
    · rw [if_pos houtcomes] at haccept
      obtain ⟨_, herror, _⟩ := exists_of_bind_eq_ok haccept
      cases herror
    · refine ⟨Bool.eq_false_of_not_eq_true houtcomes, ?_⟩
      rw [if_neg houtcomes] at haccept
      obtain ⟨_, _, haccept⟩ := exists_of_bind_eq_ok haccept
      obtain ⟨_, _, haccept⟩ := exists_of_bind_eq_ok haccept
      split at haccept
      · obtain ⟨_, herror, _⟩ := exists_of_bind_eq_ok haccept
        cases herror
      · dsimp only at haccept
        split at haccept
        · obtain ⟨_, herror, _⟩ := exists_of_bind_eq_ok haccept
          cases herror
        · cases haccept
          rfl
  exact ⟨haccepted.2 ▸ hgadget', haccepted.2 ▸ Option.not_isSome_iff_eq_none.mp
    (Bool.eq_false_iff.mp haccepted.1)⟩

section Step

variable {coordinator : MonolithicCoordinator}
variable (h : Consistent coordinator) (hserves : Serves coordinator)

include h hserves

theorem exists_step_execute_eq {gid gtype : ℕ} {connectors : List Connector}
    (hadmits : Admits coordinator (.execute gid gtype connectors)) :
    ∃ next, coordinator.step (.execute gid gtype connectors) = some next ∧ Consistent next ∧
      Serves next ∧ Effect coordinator (.execute gid gtype connectors) next := by
  obtain ⟨assigned, hassigned, hunused, hasked⟩ := exists_assignGid_eq coordinator gid
  cases htype : coordinator.gadgetTypes.lookup gtype with
  | none =>
    refine ⟨{ coordinator with nextGid := assigned.2 }, ?_, ⟨h.wired, h.tracks, h.indexed,
      h.receiver⟩, ⟨hserves.live, hserves.gathered, hserves.distinct, hserves.complete⟩,
      fun u hu => hu, rfl⟩
    rw [step, execute, hassigned]
    simp only [Option.bind_eq_bind, Option.bind_some, htype, Option.map_some]
  | some gadgetType =>
    have hfresh : assigned.1 ∉ coordinator.gadgets := by
      rcases eq_or_ne gid 0 with hzero | hne
      · exact hunused hzero
      · rw [hasked hne]
        exact hadmits.1 hne
    obtain ⟨hlength, hnodup, hfree⟩ := hadmits.2 gadgetType htype
    have hconnectable : Connectable coordinator.gadgets assigned.1 gadgetType.inputs.length
        connectors := ⟨hfresh, hlength, hnodup, hfree⟩
    let renewed : MonolithicCoordinator := { coordinator with nextGid := assigned.2 }
    have hrenewed : Consistent renewed := ⟨h.wired, h.tracks, h.indexed, h.receiver⟩
    obtain ⟨added, attached, hadd, hadded, hcalls, hattaches, hgadgets⟩ :=
      hrenewed.exists_addGadget_eq gtype hconnectable
    have hcalls' : added.subgraphCalls = coordinator.subgraphCalls := hcalls
    have hpending : ∀ {i u}, Pending added i u ↔ Pending coordinator i u := by
      intro i u
      rw [Pending, hcalls', Pending]
    have hmem : ∀ u, u ∈ added.gadgets ↔ u = assigned.1 ∨ u ∈ coordinator.gadgets := by
      rw [hgadgets]
      exact mem_added_iff _ _ hattaches
    have hcomplete : ∀ {u}, u ∈ coordinator.gadgets →
        (IsComplete added.gadgets u ↔ IsComplete coordinator.gadgets u) := by
      rw [hgadgets]
      exact fun hu => isComplete_added_iff _ _ hconnectable hattaches h.wired hu
    have hconnected : ∀ {u}, u ∈ coordinator.gadgets → IsComplete coordinator.gadgets u →
        ∀ v, Connected added.gadgets u v ↔ Connected coordinator.gadgets u v := by
      rw [hgadgets]
      exact fun hu hcomplete =>
        connected_added_iff_of_isComplete _ _ hconnectable hattaches h.wired hu hcomplete
    refine ⟨added, ?_, hadded, ⟨fun {i u} hi => ?_, fun {i u subgraph} hi => ?_,
      fun {i j u v} hi hj huv => ?_, fun u hu hucomplete => ?_⟩,
      fun u hu => (hmem u).mpr (.inr hu), hcalls'⟩
    · rw [step, execute, hassigned]
      simp only [Option.bind_eq_bind, Option.bind_some, htype]
      rw [hadd]
      rfl
    · obtain ⟨hlive, hdone⟩ := hserves.live (hpending.mp hi)
      exact ⟨(hmem u).mpr (.inr hlive), (hcomplete hlive).mpr hdone⟩
    · rw [hcalls'] at hi
      obtain ⟨hlive, hdone⟩ := hserves.live ⟨_, hi, fun subgraph => nofun⟩
      obtain ⟨hnodup, hsubgraph⟩ := hserves.gathered hi
      exact ⟨hnodup, fun v => (hsubgraph v).trans (hconnected hlive hdone v).symm⟩
    · rw [hpending] at hi hj
      obtain ⟨hlive, hdone⟩ := hserves.live hi
      exact hserves.distinct hi hj ((hconnected hlive hdone v).mp huv)
    · rcases (hmem u).mp hu with rfl | hold
      · have hnew : added.gadgets.lookup assigned.1 =
            some (newGadget gtype gadgetType.outputs.length connectors) := by
          rw [hgadgets, AList.lookup_insert]
        exact absurd hucomplete (not_isComplete_of_outcomes hnew rfl (.refl _))
      · have hdone := (hcomplete hold).mp hucomplete
        obtain ⟨i, v, hi, huv⟩ := hserves.complete u hold hdone
        exact ⟨i, v, hpending.mpr hi, (hconnected hold hdone v).mpr huv⟩

theorem exists_step_decode_eq (gid : ℕ) (rejected : Option CoordinatorError)
    (outcomes lossMask : Option (List Bool)) :
    ∃ next, coordinator.step (.decode gid rejected outcomes lossMask) = some next ∧
      Consistent next ∧ Serves next ∧
        Effect coordinator (.decode gid rejected outcomes lossMask) next := by
  cases haccept : coordinator.acceptOutcomes gid rejected outcomes lossMask with
  | error error =>
    refine ⟨coordinator, ?_, h, hserves, fun u => Iff.rfl, .inl ⟨rfl, fun u _ hu => hu⟩⟩
    rw [step, decode, haccept]
    rfl
  | ok accepted =>
    obtain ⟨hgadget, hnone⟩ := acceptOutcomes_eq_ok haccept
    obtain ⟨loaded, isFinal, hload, hloaded, hgadgets, hcalls, hfinal⟩ :=
      h.exists_loadOutcomes_eq hgadget hnone accepted.2
    have hlive := mem_of_lookup hgadget
    have hequivalence := connected_equivalence coordinator.gadgets
    have hmem : ∀ u, u ∈ loaded.gadgets ↔ u ∈ coordinator.gadgets := by
      rw [hgadgets]
      exact mem_loaded_iff hgadget accepted.2
    have hconnected : Connected loaded.gadgets = Connected coordinator.gadgets := by
      rw [hgadgets]
      exact connected_loaded hgadget accepted.2
    have hother : ∀ {u}, u ∈ coordinator.gadgets → ¬ Connected coordinator.gadgets u gid →
        (IsComplete loaded.gadgets u ↔ IsComplete coordinator.gadgets u) := by
      rw [hgadgets]
      exact fun hu hnot => isComplete_loaded_iff hgadget accepted.2 h.wired hu hnot
    have hincomplete : ∀ {u}, Connected coordinator.gadgets u gid →
        ¬ IsComplete coordinator.gadgets u := fun hu =>
      not_isComplete_of_outcomes hgadget hnone hu
    have hsame : ∀ {u}, u ∈ coordinator.gadgets → Connected coordinator.gadgets u gid →
        IsComplete loaded.gadgets u → IsComplete loaded.gadgets gid := by
      intro u _ hu hucomplete v hv
      rw [hconnected] at hv
      exact hucomplete v (hconnected ▸ hequivalence.trans hu hv)
    have hstep : coordinator.step (.decode gid rejected outcomes lossMask) = some loaded := by
      rw [step, decode, haccept]
      change ((coordinator.loadOutcomes gid accepted.1 accepted.2).bind fun loaded =>
        some (loaded.1, Except.ok loaded.2)).map Prod.fst = some loaded
      rw [hload]
      rfl
    cases isFinal with
    | false =>
      have hcalls' : loaded.subgraphCalls = coordinator.subgraphCalls := by simpa using hcalls
      have hpending : ∀ {i u}, Pending loaded i u ↔ Pending coordinator i u := by
        intro i u
        rw [Pending, hcalls', Pending]
      have hold : ∀ u ∈ coordinator.gadgets, IsComplete loaded.gadgets u →
          ¬ Connected coordinator.gadgets u gid := fun u hu hucomplete hgid =>
        Bool.false_ne_true (hfinal.mpr (hsame hu hgid hucomplete))
      refine ⟨loaded, hstep, hloaded, ⟨fun {i u} hi => ?_, fun {i u subgraph} hi => ?_,
        fun {i j u v} hi hj huv => ?_, fun u hu hucomplete => ?_⟩, hmem, .inl ⟨hcalls',
        fun u hu hucomplete => (hother hu (hold u hu hucomplete)).mp hucomplete⟩⟩
      · obtain ⟨hu, hdone⟩ := hserves.live (hpending.mp hi)
        exact ⟨(hmem u).mpr hu, (hother hu fun hgid => hincomplete hgid hdone).mpr hdone⟩
      · rw [hcalls'] at hi
        rw [hconnected]
        exact hserves.gathered hi
      · rw [hconnected] at huv
        exact hserves.distinct (hpending.mp hi) (hpending.mp hj) huv
      · have hu' := (hmem u).mp hu
        obtain ⟨i, v, hi, huv⟩ := hserves.complete u hu'
          ((hother hu' (hold u hu' hucomplete)).mp hucomplete)
        exact ⟨i, v, hpending.mpr hi, hconnected ▸ huv⟩
    | true =>
      have hcalls' : loaded.subgraphCalls = coordinator.subgraphCalls ++ [⟨gid, .called⟩] := by
        simpa using hcalls
      have hpending := fun {i u} => pending_append_iff hcalls' (i := i) (u := u)
      have hnew : IsComplete loaded.gadgets gid := hfinal.mp rfl
      -- A component that had a call was complete, so it is not the one of the gadget.
      have hapart : ∀ {i u}, Pending coordinator i u → ¬ Connected coordinator.gadgets u gid :=
        fun hi hgid => hincomplete hgid (hserves.live hi).2
      refine ⟨loaded, hstep, hloaded, ⟨fun {i u} hi => ?_, fun {i u subgraph} hi => ?_,
        fun {i j u v} hi hj huv => ?_, fun u hu hucomplete => ?_⟩, hmem,
        .inr ⟨hcalls', hlive, hincomplete (hequivalence.refl gid), hnew⟩⟩
      · rcases hpending.mp hi with hold | ⟨-, rfl⟩
        · obtain ⟨hu, hdone⟩ := hserves.live hold
          exact ⟨(hmem u).mpr hu, (hother hu (hapart hold)).mpr hdone⟩
        · exact ⟨(hmem u).mpr hlive, hnew⟩
      · rw [hcalls'] at hi
        rw [hconnected]
        rcases Nat.lt_trichotomy i coordinator.subgraphCalls.length with hlt | rfl | hgt
        · rw [getElem?_append_left hlt] at hi
          exact hserves.gathered hi
        · rw [getElem?_concat_length] at hi
          cases hi
        · rw [getElem?_eq_none] at hi
          · cases hi
          · rw [length_append]
            exact hgt
      · rw [hconnected] at huv
        rcases hpending.mp hi with hiold | ⟨rfl, rfl⟩
        · rcases hpending.mp hj with hjold | ⟨-, rfl⟩
          · exact hserves.distinct hiold hjold huv
          · exact absurd huv (hapart hiold)
        · rcases hpending.mp hj with hjold | ⟨rfl, -⟩
          · exact absurd (hequivalence.symm huv) (hapart hjold)
          · rfl
      · have hu' := (hmem u).mp hu
        by_cases hgid : Connected coordinator.gadgets u gid
        · exact ⟨_, gid, hpending.mpr (.inr ⟨rfl, rfl⟩), hconnected ▸ hgid⟩
        · obtain ⟨i, v, hi, huv⟩ := hserves.complete u hu' ((hother hu' hgid).mp hucomplete)
          exact ⟨i, v, hpending.mpr (.inl hi), hconnected ▸ huv⟩

theorem exists_step_gather_eq {index : ℕ} (hadmits : Admits coordinator (.gather index)) :
    ∃ next, coordinator.step (.gather index) = some next ∧ Consistent next ∧ Serves next ∧
      Effect coordinator (.gather index) next := by
  obtain ⟨gid, hcall⟩ := hadmits
  have hindex := (List.getElem?_eq_some_iff.mp hcall).1
  have hself : Pending coordinator index gid := ⟨_, hcall, fun subgraph => nofun⟩
  obtain ⟨hlive, hcomplete⟩ := hserves.live hself
  obtain ⟨component, hcomponent, hspec⟩ := exists_getSubgraph_eq h.wired hlive hcomplete
  let next : MonolithicCoordinator := { coordinator with
    subgraphCalls := coordinator.subgraphCalls.set index ⟨gid, .gathered component⟩ }
  have hcalls : next.subgraphCalls =
      coordinator.subgraphCalls.set index ⟨gid, .gathered component⟩ := rfl
  have hpending : ∀ {i u}, Pending next i u ↔ Pending coordinator i u := by
    intro i u
    rcases eq_or_ne i index with rfl | hi
    · rw [pending_set_iff hcalls hindex]
      constructor
      · rintro ⟨rfl, -⟩
        exact hself
      · rintro ⟨stage, hstage, hnot⟩
        cases hcall.symm.trans hstage
        exact ⟨rfl, fun subgraph => nofun⟩
    · exact pending_set_iff_of_ne rfl hi
  refine ⟨next, ?_, ⟨h.wired, h.tracks, h.indexed, h.receiver⟩, ⟨fun {i u} hi => ?_,
    fun {i u subgraph} hi => ?_, fun {i j u v} hi hj huv => ?_, fun u hu hucomplete => ?_⟩, rfl,
    gid, component, hcall, rfl⟩
  · rw [step, gather, hcall]
    simp only [Option.bind_eq_bind, Option.bind_some, (Option.guard_eq_some' ()).mpr, hcomponent]
    rfl
  · exact hserves.live (hpending.mp hi)
  · rcases eq_or_ne i index with rfl | hne
    · rw [getElem?_set_self hindex] at hi
      cases hi
      exact hspec
    · rw [getElem?_set_ne hne.symm] at hi
      exact hserves.gathered hi
  · exact hserves.distinct (hpending.mp hi) (hpending.mp hj) huv
  · obtain ⟨i, v, hi, huv⟩ := hserves.complete u hu hucomplete
    exact ⟨i, v, hpending.mpr hi, huv⟩

theorem exists_step_take_eq {index : ℕ} (hadmits : Admits coordinator (.take index)) :
    ∃ next, coordinator.step (.take index) = some next ∧ Consistent next ∧ Serves next ∧
      Effect coordinator (.take index) next := by
  obtain ⟨gid, subgraph, hcall⟩ := hadmits
  have hindex := (List.getElem?_eq_some_iff.mp hcall).1
  have hself : Pending coordinator index gid := ⟨_, hcall, fun subgraph => nofun⟩
  obtain ⟨hlive, hcomplete⟩ := hserves.live hself
  obtain ⟨hnodup, hsubgraph⟩ := hserves.gathered hcall
  have hequivalence := connected_equivalence coordinator.gadgets
  obtain ⟨gadgets, hremove, hout, hlookup⟩ := exists_foldlM_removeGadget_eq subgraph hnodup
    (fun u hu => (h.wired.mem_iff_of_connected ((hsubgraph u).mp hu)).mp hlive)
  have hmem := mem_removed_iff hout hlookup
  have hconnected := fun {u} hu => connected_removed_iff (u := u) hsubgraph hout hlookup hu
  have hisComplete := fun {u} hu => isComplete_removed_iff
    (u := u) hsubgraph hout hlookup h.wired hu
  let next : MonolithicCoordinator := { coordinator with
    gadgets := gadgets
    subgraphCalls := coordinator.subgraphCalls.set index ⟨gid, .taken subgraph⟩ }
  have hcalls : next.subgraphCalls = coordinator.subgraphCalls.set index ⟨gid, .taken subgraph⟩ :=
    rfl
  -- A component with another call is not the one that is taken.
  have hpending : ∀ {i u}, Pending next i u → Pending coordinator i u ∧ i ≠ index ∧
      u ∉ subgraph := by
    intro i u hi
    rcases eq_or_ne i index with rfl | hne
    · rw [pending_set_iff hcalls hindex] at hi
      exact absurd rfl (hi.2 subgraph)
    · have hold := (pending_set_iff_of_ne hcalls hne).mp hi
      refine ⟨hold, hne, fun hu => hne ?_⟩
      exact hserves.distinct hold hself (hequivalence.symm ((hsubgraph u).mp hu))
  refine ⟨next, ?_, ⟨?_, ?_, ?_, ?_⟩, ⟨fun {i u} hi => ?_,
    fun {i u subgraph'} hi => ?_, fun {i j u v} hi hj huv => ?_, fun u hu hucomplete => ?_⟩,
    gid, subgraph, hcall, rfl, hlive, hcomplete, fun u => ?_⟩
  · rw [step, take, hcall]
    simp only [Option.bind_eq_bind, Option.bind_some, SubgraphStage.gathered?, hremove]
    rfl
  · exact wired_removed hsubgraph hout hlookup h.wired
  · have hkeys : ∀ {u}, u ∈ gadgets.keys.toFinset ↔
        u ∈ coordinator.gadgets.keys.toFinset ∧ u ∉ subgraph := by
      intro u
      rw [mem_toFinset, mem_toFinset, ← AList.mem_keys, ← AList.mem_keys]
      exact hmem u
    refine (h.tracks.restrict (fun u hu => (hkeys.mp hu).1) fun u hu v hv huv => ?_).congr
      (fun u _ => rfl) (fun u hu v _ => (hconnected (hkeys.mp hu).2 v).symm)
      fun u hu => (weight_removed hlookup (hkeys.mp hu).2).symm
    refine hkeys.mpr ⟨hv, fun hin => (hkeys.mp hu).2 ?_⟩
    rw [hsubgraph] at hin ⊢
    exact hequivalence.trans hin (hequivalence.symm huv)
  · exact fun u hu => h.indexed u ((hmem u).mp hu).1
  · intro u gadget hgadget hnone
    have hu := ((hmem u).mp (mem_of_lookup hgadget)).2
    exact h.receiver ((hlookup u hu).symm.trans hgadget) hnone
  · obtain ⟨hold, -, hu⟩ := hpending hi
    obtain ⟨hulive, hucomplete⟩ := hserves.live hold
    have hu' := (hmem u).mpr ⟨hulive, hu⟩
    exact ⟨hu', (hisComplete hu').mpr hucomplete⟩
  · obtain ⟨-, hne, hu⟩ := hpending ⟨_, hi, fun subgraph => nofun⟩
    rw [getElem?_set_ne hne.symm] at hi
    obtain ⟨hnodup', hsubgraph'⟩ := hserves.gathered hi
    exact ⟨hnodup', fun v => (hsubgraph' v).trans (hconnected hu v).symm⟩
  · obtain ⟨hiold, -, hu⟩ := hpending hi
    exact hserves.distinct hiold (hpending hj).1 ((hconnected hu v).mp huv)
  · obtain ⟨hold, hu'⟩ := (hmem u).mp hu
    obtain ⟨i, v, hi, huv⟩ := hserves.complete u hold ((hisComplete hu).mp hucomplete)
    refine ⟨i, v, (pending_set_iff_of_ne rfl ?_).mpr hi, (hconnected hu' v).mpr huv⟩
    rintro rfl
    obtain ⟨stage, hstage, -⟩ := hi
    cases hcall.symm.trans hstage
    exact hu' ((hsubgraph u).mpr (hequivalence.symm huv))
  · rw [← hsubgraph]
    exact hmem u

theorem exists_step_eq {event : Event} (hadmits : Admits coordinator event) :
    ∃ next, coordinator.step event = some next ∧ Consistent next ∧ Serves next ∧
      Effect coordinator event next := by
  cases event with
  | execute gid gtype connectors => exact exists_step_execute_eq h hserves hadmits
  | decode gid rejected outcomes lossMask =>
    exact exists_step_decode_eq h hserves gid rejected outcomes lossMask
  | gather index => exact exists_step_gather_eq h hserves hadmits
  | take index => exact exists_step_take_eq h hserves hadmits

end Step

/-- The union-find roots of the components hold their counts. -/
def CountsComponents (coordinator : MonolithicCoordinator) : Prop :=
  ∃ root : ℕ → ℕ,
    (∀ u ∈ coordinator.gadgets, ∀ v ∈ coordinator.gadgets,
      root u = root v ↔ Connected coordinator.gadgets u v) ∧
    ∀ gid ∈ coordinator.gadgets, ∃ uf node,
      coordinator.pendingSubgraphs.find (unionIndex coordinator.gidToUnionIndex gid) =
        some (uf, root gid) ∧ uf.payload[root gid]? = some node ∧
      node.numUnloadedGadgets = (unloadedGadgets coordinator.gadgets gid).card ∧
      node.numUnconnectedOutputs = (unconnectedOutputs coordinator.gadgets gid).card

theorem Consistent.countsComponents
    (h : Consistent coordinator) : CountsComponents coordinator := by
  obtain ⟨root, hclass, hroot⟩ := h.tracks.exists_root
  have hlive : ∀ {u}, u ∈ coordinator.gadgets → u ∈ coordinator.gadgets.keys.toFinset :=
    fun hu => mem_toFinset.mpr (AList.mem_keys.mp hu)
  refine ⟨fun u => root (unionIndex coordinator.gidToUnionIndex u),
    fun u hu v hv => hclass u (hlive hu) v (hlive hv), fun gid hgid => ?_⟩
  obtain ⟨uf, node, hfind, hnode, hmeasure⟩ := hroot gid (hlive hgid)
  rw [h.wired.classSum_weight gid] at hmeasure
  exact ⟨uf, node, hfind, hnode, congrArg Prod.fst hmeasure, congrArg Prod.snd hmeasure⟩

/-- A component has one pending call when it is complete, and none before. -/
def CallsOnce (coordinator : MonolithicCoordinator) : Prop :=
  ∀ gid ∈ coordinator.gadgets,
    (IsComplete coordinator.gadgets gid →
      ∃! index, ∃ u, Pending coordinator index u ∧ Connected coordinator.gadgets gid u) ∧
    (¬ IsComplete coordinator.gadgets gid →
      ∀ index u, Pending coordinator index u → ¬ Connected coordinator.gadgets gid u)

theorem Serves.callsOnce (h : Serves coordinator) :
    CallsOnce coordinator := by
  have hequivalence := connected_equivalence coordinator.gadgets
  refine fun gid hgid => ⟨fun hcomplete => ?_, fun hincomplete index u hindex hu => ?_⟩
  · obtain ⟨index, u, hindex, hu⟩ := h.complete gid hgid hcomplete
    refine ⟨index, ⟨u, hindex, hu⟩, ?_⟩
    rintro other ⟨v, hother, hv⟩
    exact h.distinct hother hindex (hequivalence.trans (hequivalence.symm hv) hu)
  · exact hincomplete fun v hv =>
      (h.live hindex).2 v (hequivalence.trans (hequivalence.symm hu) hv)

theorem exists_run_eq (events : List Event)
    (h : Consistent coordinator) (hserves : Serves coordinator)
    (hadmitted : Admitted coordinator events) :
    ∃ final, coordinator.run events = some final ∧ Consistent final ∧ Serves final ∧
      ∀ before event after, events = before ++ event :: after →
        ∃ middle next, coordinator.run before = some middle ∧
          middle.step event = some next ∧ Effect middle event next := by
  induction events generalizing coordinator with
  | nil =>
    refine ⟨coordinator, rfl, h, hserves, fun before event after heq => ?_⟩
    cases before <;> cases heq
  | cons event events ih =>
    obtain ⟨next, hstep, hnext, hservesNext, heffect⟩ := exists_step_eq h hserves hadmitted.1
    obtain ⟨final, hrun, hfinal, hservesFinal, heffects⟩ :=
      ih hnext hservesNext (hadmitted.2 next hstep)
    have hcons : ∀ events, coordinator.run (event :: events) = next.run events := by
      intro events
      rw [run, foldlM_cons, hstep]
      rfl
    refine ⟨final, (hcons events).trans hrun, hfinal, hservesFinal,
      fun before event' after heq => ?_⟩
    cases before with
    | nil =>
      cases heq
      exact ⟨coordinator, next, rfl, hstep, heffect⟩
    | cons first before =>
      cases heq
      obtain ⟨middle, next', hmiddle, hrest⟩ := heffects before event' after rfl
      exact ⟨middle, next', (hcons before).trans hmiddle, hrest⟩

theorem admitted_cons {event : Event}
    {events : List Event} (hadmits : Admits coordinator event)
    (hstep : coordinator.step event = some next) (h : Admitted next events) :
    Admitted coordinator (event :: events) := by
  refine ⟨hadmits, fun next' hnext' => ?_⟩
  obtain rfl := Option.some_inj.mp (hstep.symm.trans hnext')
  exact h

/-- Every valid sequence of events succeeds.  The roots count the components, every complete
component is decoded by one call, the load that completes it makes the call, and the call takes
exactly its gadgets. -/
theorem components_decoded_once {gadgetTypes : GidMap GadgetType} {events : List Event}
    (h : Admitted (new gadgetTypes) events) :
    ∃ final, (new gadgetTypes).run events = some final ∧ CountsComponents final ∧ CallsOnce final ∧
        ∀ before event after, events = before ++ event :: after →
          ∃ middle next, (new gadgetTypes).run before = some middle ∧
            middle.step event = some next ∧ Effect middle event next := by
  obtain ⟨final, hrun, hfinal, hserves, heffects⟩ :=
    exists_run_eq events (consistent_new gadgetTypes) (serves_new gadgetTypes) h
  exact ⟨final, hrun, hfinal.countsComponents, hserves.callsOnce, heffects⟩

def sourceSinkLibrary : GidMap GadgetType :=
  ((∅ : GidMap GadgetType).insert 1 ⟨[], [0], 1, 0, none, none, none, none⟩).insert 2
    ⟨[0], [], 1, 0, none, none, none, none⟩

/-- A source and a sink are connected, loaded, and decoded. -/
def sourceSinkEvents : List Event :=
  [.execute 0 1 [], .execute 7 2 [⟨1, 0⟩], .decode 7 none (some [true]) none,
    .decode 1 none (some [false]) none, .gather 0, .take 0]

/-- The counters of a source and a sink are exact when they are decoded. -/
theorem sourceSinkEvents_decoded_once :
    ∃ final, (new sourceSinkLibrary).run sourceSinkEvents = some final ∧ CountsComponents final ∧
      CallsOnce final ∧ ∀ before event after, sourceSinkEvents = before ++ event :: after →
          ∃ middle next, (new sourceSinkLibrary).run before = some middle ∧
            middle.step event = some next ∧ Effect middle event next := by
  refine components_decoded_once (admitted_cons ⟨nofun, ?_⟩ rfl (admitted_cons ⟨?_, ?_⟩ rfl
    (admitted_cons trivial rfl (admitted_cons trivial rfl (admitted_cons ⟨1, rfl⟩ rfl
      (admitted_cons ⟨1, [1, 7], rfl⟩ rfl trivial))))))
  · intro gadgetType htype
    cases htype
    exact ⟨rfl, nodup_nil, by simp⟩
  · exact fun _ hmem => nomatch AList.mem_keys.mp hmem
  · intro gadgetType htype
    cases htype
    refine ⟨rfl, nodup_singleton _, fun c hc => ?_⟩
    obtain rfl := mem_singleton.mp hc
    exact ⟨_, rfl, rfl⟩

end MonolithicCoordinator

end QdkEc
