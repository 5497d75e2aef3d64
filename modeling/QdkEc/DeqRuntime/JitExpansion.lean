import QdkEc.DeqRuntime.JitSequencers

/-!
# What compiled checks denote

This module proves that the expanded checks of a run denote what is met when they are
unfolded, and that the compiled check model types are read as that.  The invariant of a
run says how its gadgets are wired and what their unconnected output ports denote.
-/

namespace QdkEc

open List Option

section Denotes

variable {K : Type} {types : JitTypes K} {history : List GadgetRequest}

theorem Denotes.nil : Denotes types history [] (∅, false) where
  measurements _ := by simp
  flipped := rfl

theorem Denotes.measurement (gid index : ℕ) :
    Denotes types history [.measurement gid index] ({⟨gid, index⟩}, false) where
  measurements measurement := by
    rw [Finset.mem_singleton, count_singleton]
    by_cases hsame : measurement = ⟨gid, index⟩
    · subst hsame
      simp
    · rw [if_neg]
      · exact iff_of_false hsame (by simp)
      · intro heq
        rw [beq_iff_eq] at heq
        cases heq
        exact hsame rfl
  flipped := rfl

theorem Denotes.append {first second : List Reference}
    {left right : Finset ExplicitMeasurement × Bool} (hfirst : Denotes types history first left)
    (hsecond : Denotes types history second right) :
    Denotes types history (first ++ second) (symmDiff left.1 right.1, left.2 ^^ right.2) where
  measurements measurement := by
    rw [Finset.mem_symmDiff, hfirst.measurements, hsecond.measurements, count_append,
      Nat.odd_add, ← Nat.not_odd_iff_even]
    tauto
  flipped := by rw [map_append, xorAll_append, ← hfirst.flipped, ← hsecond.flipped]

end Denotes

/-- The gadget of a reference. -/
def Reference.gid : Reference → ℕ
  | .measurement gid _ => gid
  | .unfinishedCheck gid _ => gid

section Growing

variable {K : Type} {types : JitTypes K} {history : List GadgetRequest}

variable {request : GadgetRequest} {reference : Reference}

theorem mem_unfoldCheck {unfoldPeer : ℕ → ℕ → ℕ → List Reference} {check : JitCheck}
    (hmem : reference ∈ unfoldCheck unfoldPeer request check) :
    (∃ index, reference = .measurement request.gid index) ∨
      ∃ connector ∈ request.connectors, ∃ index,
        reference ∈ unfoldPeer connector.gid connector.port index := by
  obtain ⟨measurement, -, hmem⟩ := mem_flatMap.mp hmem
  cases hport : measurement.inputPort with
  | none =>
    rw [hport] at hmem
    exact .inl ⟨_, mem_singleton.mp hmem⟩
  | some inputPort =>
    rw [hport, elim_some] at hmem
    cases hconnector : request.connectors[inputPort]? with
    | none =>
      rw [hconnector] at hmem
      cases hmem
    | some connector =>
      rw [hconnector] at hmem
      exact .inr ⟨connector, mem_of_getElem? hconnector, _, hmem⟩

theorem gid_mem_of_mem_unfoldVirtual {gid port index : ℕ}
    (hmem : reference ∈ unfoldVirtual types history gid port index) :
    reference.gid ∈ history.map GadgetRequest.gid := by
  induction history generalizing gid port index with
  | nil => cases hmem
  | cons request history ih =>
    rw [unfoldVirtual] at hmem
    rw [map_cons, mem_cons]
    split at hmem
    · rename_i hgid
      cases htype : types.gadgetTypes.lookup request.gtype with
      | none =>
        rw [htype] at hmem
        cases hmem
      | some gadgetType =>
        rw [htype, elim_some] at hmem
        rcases mem_cons.mp hmem with rfl | hmem
        · exact .inl hgid.symm
        · cases hcheck : gadgetType.unfinishedChecks[virtualIndex types gadgetType port index]?
            with
          | none =>
            rw [hcheck] at hmem
            cases hmem
          | some check =>
            rw [hcheck, elim_some] at hmem
            rcases mem_unfoldCheck hmem with ⟨_, rfl⟩ | ⟨_, -, _, hpeer⟩
            · exact .inl rfl
            · exact .inr (ih hpeer)
    · exact .inr (ih hmem)

theorem naturallyFlipped_cons (hne : reference.gid ≠ request.gid) :
    reference.naturallyFlipped types (request :: history) =
      reference.naturallyFlipped types history := by
  cases reference with
  | measurement gid index => rfl
  | unfinishedCheck gid index =>
    have hfind : decide (request.gid = gid) = false := decide_eq_false fun h => hne h.symm
    simp only [Reference.naturallyFlipped, unfinishedCheckOf, find?_cons, hfind]

theorem Denotes.cons {references : List Reference}
    {expanded : Finset ExplicitMeasurement × Bool} (h : Denotes types history references expanded)
    (hne : ∀ reference ∈ references, reference.gid ≠ request.gid) :
    Denotes types (request :: history) references expanded where
  measurements := h.measurements
  flipped := by
    rw [h.flipped]
    exact congrArg xorAll (map_congr_left fun reference hmem =>
      (naturallyFlipped_cons (hne reference hmem)).symm)

theorem unfoldVirtual_cons_of_ne {gid : ℕ} (hne : request.gid ≠ gid) (port index : ℕ) :
    unfoldVirtual types (request :: history) gid port index =
      unfoldVirtual types history gid port index := by
  rw [unfoldVirtual, if_neg hne]

theorem unfoldCheck_cons {request other : GadgetRequest}
    (hne : ∀ connector ∈ request.connectors, other.gid ≠ connector.gid) (check : JitCheck) :
    unfoldCheck (unfoldVirtual types (other :: history)) request check =
      unfoldCheck (unfoldVirtual types history) request check := by
  refine flatMap_congr fun measurement _ => ?_
  cases measurement.inputPort with
  | none => rfl
  | some inputPort =>
    rw [elim_some, elim_some]
    cases hconnector : request.connectors[inputPort]? with
    | none => rfl
    | some connector =>
      exact unfoldVirtual_cons_of_ne (hne connector (mem_of_getElem? hconnector)) _ _

end Growing

section Expanding

variable {K : Type} {types : JitTypes K} {history : List GadgetRequest} {request : GadgetRequest}
  {inputChecks : List (List (Finset ExplicitMeasurement × Bool))}

/-- The checks that are taken at the input ports denote what is met at the peers. -/
def InputsDenote (types : JitTypes K) (history : List GadgetRequest) (request : GadgetRequest)
    (inputChecks : List (List (Finset ExplicitMeasurement × Bool))) :
    Prop :=
  ∀ (inputPort : ℕ) portChecks, inputChecks[inputPort]? = some portChecks →
    ∃ connector, request.connectors[inputPort]? = some connector ∧
      ∀ (index : ℕ) expanded, portChecks[index]? = some expanded →
        Denotes types history (unfoldVirtual types history connector.gid connector.port index)
          expanded

theorem expandCheckMeasurements_denotes (hinputs : InputsDenote types history request inputChecks)
    {check : JitCheck} {expanded : Finset ExplicitMeasurement × Bool}
    (hexpand : expandCheckMeasurements inputChecks request.gid check = some expanded) :
    Denotes types history (unfoldCheck (unfoldVirtual types history) request check)
      (expanded.1, expanded.2 ^^ check.naturallyFlipped) := by
  refine foldlM_induction (fun done expanded => Denotes types history
    (unfoldCheck (unfoldVirtual types history) request { check with measurements := done })
    (expanded.1, expanded.2 ^^ check.naturallyFlipped)) ?_ ?_ hexpand
  · rw [Bool.xor_self]
    exact .nil
  · intro done measurement before after hbefore hstep
    rw [unfoldCheck, flatMap_append, flatMap_singleton]
    rw [expandMeasurement] at hstep
    split at hstep
    · rename_i hport
      cases hstep
      rw [hport, elim_none]
      have hadded := hbefore.append (.measurement request.gid measurement.measurementIndex)
      rwa [Bool.xor_false] at hadded
    · rename_i inputPort hport
      obtain ⟨portChecks, hportChecks, hstep⟩ := bind_eq_some_iff.mp hstep
      obtain ⟨inputCheck, hinputCheck, hstep⟩ := bind_eq_some_iff.mp hstep
      cases hstep
      obtain ⟨connector, hconnector, hdenotes⟩ := hinputs inputPort portChecks hportChecks
      rw [hport, elim_some, hconnector, elim_some]
      have hadded := hbefore.append (hdenotes _ _ hinputCheck)
      rwa [Bool.xor_right_comm] at hadded

end Expanding

end QdkEc
