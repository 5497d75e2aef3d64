import QdkEc.DeqRuntime.JitInvariant

/-!
# References to virtual checks

This module counts how often a virtual check of an output port is met when checks are
unfolded.  The stored references to an input port hold a check once for each of its
mentions, and what meets a virtual check meets it at the gadget that is connected to its
port: directly, or through an unfinished check of that gadget that mentions it.
-/

namespace QdkEc

open List CheckReferences

/-- How often a check mentions a virtual check of an input port. -/
def JitCheck.mentions (check : JitCheck) (port index : ℕ) : ℕ :=
  check.measurements.count ⟨some port, index⟩

/-- The references to a virtual check of an input port. -/
def referencesAt (inputMap : InputVirtualCheckMap) (port index : ℕ) : Option CheckReferences :=
  (inputMap[port]?).bind fun entries => entries[index]?

section Mentions

variable {inputMap after : InputVirtualCheckMap}

variable {push : CheckReferences → CheckReferences}

theorem referencesAt_recordMention {measurement : PresentMeasurement}
    (hrecord : recordMention push inputMap measurement = some after) (port index : ℕ) :
    referencesAt after port index =
      if measurement = ⟨some port, index⟩ then (referencesAt inputMap port index).map push
      else referencesAt inputMap port index := by
  rw [recordMention] at hrecord
  split at hrecord
  · rename_i hport
    cases hrecord
    rw [if_neg]
    rintro rfl
    cases hport
  · rename_i mentioned hport
    obtain ⟨entries, hentries, hrecord⟩ := Option.bind_eq_some_iff.mp hrecord
    obtain ⟨entry, hentry, hrecord⟩ := Option.bind_eq_some_iff.mp hrecord
    cases hrecord
    obtain ⟨hlt, -⟩ := List.getElem?_eq_some_iff.mp hentries
    obtain ⟨hlt', -⟩ := List.getElem?_eq_some_iff.mp hentry
    rw [referencesAt, List.getElem?_set]
    by_cases hsame : mentioned = port
    · subst hsame
      rw [if_pos rfl, if_pos hlt, Option.bind_some, List.getElem?_set, referencesAt, hentries,
        Option.bind_some]
      by_cases hindex : measurement.measurementIndex = index
      · subst hindex
        rw [if_pos rfl, if_pos hlt', hentry, if_pos, Option.map_some]
        rw [← hport]
      · rw [if_neg hindex, if_neg]
        rintro rfl
        exact hindex rfl
    · rw [if_neg hsame, if_neg]
      · rfl
      · rintro rfl
        cases hport
        exact hsame rfl

theorem referencesAt_foldlM_recordMention {measurements : List PresentMeasurement}
    (hrecord : measurements.foldlM (recordMention push) inputMap = some after) (port index : ℕ) :
    referencesAt after port index =
      (referencesAt inputMap port index).map push^[measurements.count ⟨some port, index⟩] := by
  refine foldlM_induction (fun done inputMap' => referencesAt inputMap' port index =
    (referencesAt inputMap port index).map push^[done.count ⟨some port, index⟩]) ?_ ?_ hrecord
  · rw [count_nil, Function.iterate_zero, Option.map_id_apply]
  · intro done measurement before after hbefore hstep
    rw [referencesAt_recordMention hstep, hbefore, count_append, count_singleton]
    by_cases hsame : measurement = ⟨some port, index⟩
    · rw [if_pos hsame, if_pos (beq_iff_eq.mpr hsame), Option.map_map, Function.iterate_succ']
    · rw [if_neg hsame, if_neg fun h => hsame (beq_iff_eq.mp h), Nat.add_zero]

theorem isSome_referencesAt_of_mem {measurements : List PresentMeasurement}
    (hrecord : measurements.foldlM (recordMention push) inputMap = some after) {port index : ℕ}
    (hmem : ⟨some port, index⟩ ∈ measurements) : (referencesAt inputMap port index).isSome := by
  induction measurements generalizing inputMap with
  | nil => cases hmem
  | cons measurement measurements ih =>
    obtain ⟨middle, hmiddle, hrecord⟩ := Option.bind_eq_some_iff.mp hrecord
    rcases mem_cons.mp hmem with rfl | hmem
    · obtain ⟨entries, hentries, hmiddle⟩ := Option.bind_eq_some_iff.mp hmiddle
      obtain ⟨entry, hentry, -⟩ := Option.bind_eq_some_iff.mp hmiddle
      rw [referencesAt, hentries, Option.bind_some, hentry, Option.isSome_some]
    · have hsome := ih hrecord hmem
      rw [referencesAt_recordMention hmiddle] at hsome
      split at hsome
      · rwa [Option.isSome_map] at hsome
      · exact hsome

end Mentions

/-- The checks that mention a virtual check, each once for each mention. -/
def referencesTo (checks : List JitCheck) (port index : ℕ) : List ℕ :=
  checks.zipIdx.flatMap fun check => List.replicate (check.1.mentions port index) check.2

def CheckReferences.pushFinished (checkIndex : ℕ) (entry : CheckReferences) : CheckReferences :=
  { entry with finishedChecks := entry.finishedChecks ++ [checkIndex] }

def CheckReferences.pushUnfinished (checkIndex : ℕ) (entry : CheckReferences) : CheckReferences :=
  { entry with unfinishedChecks := entry.unfinishedChecks ++ [checkIndex] }

section InputMap

variable {K : Type} {gadgetType : JitGadgetType K} {portTypes : GidMap JitPortType}
  {inputMap after : InputVirtualCheckMap}

theorem foldl_replicate_eq_iterate {A B : Type} (step : B → A → B) (a : A) (count : ℕ) (b : B) :
    (List.replicate count a).foldl step b = (fun b => step b a)^[count] b := by
  induction count generalizing b with
  | zero => rfl
  | succ count ih => rw [replicate_succ, foldl_cons, ih, Function.iterate_succ_apply]

theorem referencesAt_foldlM_record (push : ℕ → CheckReferences → CheckReferences)
    {checks : List (JitCheck × ℕ)} (hrecord : checks.foldlM (fun inputMap check =>
      check.1.measurements.foldlM (recordMention (push check.2)) inputMap) inputMap = some after)
    (port index : ℕ) :
    referencesAt after port index = (referencesAt inputMap port index).map fun entry =>
      (checks.flatMap fun check => List.replicate (check.1.mentions port index) check.2).foldl
        (fun entry checkIndex => push checkIndex entry) entry := by
  refine foldlM_induction (fun done inputMap' => referencesAt inputMap' port index =
    (referencesAt inputMap port index).map fun entry =>
      (done.flatMap fun check => List.replicate (check.1.mentions port index) check.2).foldl
        (fun entry checkIndex => push checkIndex entry) entry) ?_ ?_ hrecord
  · exact Option.map_id'.symm
  · intro done check before after hbefore hstep
    rw [referencesAt_foldlM_recordMention hstep, hbefore, Option.map_map, flatMap_append,
      flatMap_singleton]
    refine congrArg (fun f => Option.map f _) (funext fun entry => ?_)
    rw [Function.comp_apply, foldl_append, foldl_replicate_eq_iterate, JitCheck.mentions]

theorem foldl_push_finished (entry : CheckReferences) (checks : List ℕ) :
    checks.foldl (fun entry checkIndex => entry.pushFinished checkIndex) entry =
      { entry with finishedChecks := entry.finishedChecks ++ checks } := by
  induction checks generalizing entry with
  | nil => rw [foldl_nil, append_nil]
  | cons check checks ih =>
    rw [foldl_cons, ih, pushFinished]
    rw [append_assoc, singleton_append]

theorem foldl_push_unfinished (entry : CheckReferences) (checks : List ℕ) :
    checks.foldl (fun entry checkIndex => entry.pushUnfinished checkIndex) entry =
      { entry with unfinishedChecks := entry.unfinishedChecks ++ checks } := by
  induction checks generalizing entry with
  | nil => rw [foldl_nil, append_nil]
  | cons check checks ih =>
    rw [foldl_cons, ih, pushUnfinished]
    rw [append_assoc, singleton_append]

variable {port index : ℕ}

theorem referencesAt_inputVirtualCheckMap
    (hmap : inputVirtualCheckMap gadgetType portTypes = some inputMap)
    {references : CheckReferences}
    (hreferences : referencesAt inputMap port index = some references) :
    references = ⟨referencesTo gadgetType.finishedChecks port index,
      referencesTo gadgetType.unfinishedChecks port index⟩ := by
  obtain ⟨initial, hinitial, hmap⟩ := Option.bind_eq_some_iff.mp hmap
  obtain ⟨middle, hmiddle, hmap⟩ := Option.bind_eq_some_iff.mp hmap
  have hempty : ∀ entry, referencesAt initial port index = some entry → entry = ⟨[], []⟩ := by
    intro entry hentry
    obtain ⟨entries, hentries, hentry⟩ := Option.bind_eq_some_iff.mp hentry
    obtain ⟨ptype, -, hentries⟩ := exists_getElem?_of_mapM hinitial hentries
    obtain ⟨portType, -, rfl⟩ := Option.map_eq_some_iff.mp hentries
    exact eq_of_mem_replicate (mem_of_getElem? hentry)
  rw [referencesAt_foldlM_record pushUnfinished hmap,
    referencesAt_foldlM_record pushFinished hmiddle,
    Option.map_map] at hreferences
  obtain ⟨entry, hentry, rfl⟩ := Option.map_eq_some_iff.mp hreferences
  rw [hempty entry hentry, Function.comp_apply, foldl_push_finished, foldl_push_unfinished]
  rfl

theorem isSome_referencesAt_of_record (push : ℕ → CheckReferences → CheckReferences)
    {checks : List (JitCheck × ℕ)} (hrecord : checks.foldlM (fun inputMap check =>
      check.1.measurements.foldlM (recordMention (push check.2)) inputMap) inputMap = some after)
    {check : JitCheck × ℕ} (hcheck : check ∈ checks)
    (hmem : ⟨some port, index⟩ ∈ check.1.measurements) :
    (referencesAt inputMap port index).isSome := by
  induction checks generalizing inputMap with
  | nil => cases hcheck
  | cons other checks ih =>
    obtain ⟨middle, hmiddle, hrecord⟩ := Option.bind_eq_some_iff.mp hrecord
    rcases mem_cons.mp hcheck with rfl | hcheck
    · exact isSome_referencesAt_of_mem hmiddle hmem
    · have hsome := ih hrecord hcheck
      rwa [referencesAt_foldlM_recordMention hmiddle, Option.isSome_map] at hsome

theorem isSome_referencesAt_of_mention
    (hmap : inputVirtualCheckMap gadgetType portTypes = some inputMap) {check : JitCheck}
    (hcheck : check ∈ gadgetType.finishedChecks ++ gadgetType.unfinishedChecks)
    (hmem : ⟨some port, index⟩ ∈ check.measurements) :
    (referencesAt inputMap port index).isSome := by
  obtain ⟨initial, hinitial, hmap⟩ := Option.bind_eq_some_iff.mp hmap
  obtain ⟨middle, hmiddle, hmap⟩ := Option.bind_eq_some_iff.mp hmap
  have hfinished := referencesAt_foldlM_record pushFinished hmiddle port index
  have hunfinished := referencesAt_foldlM_record pushUnfinished hmap port index
  have hsome : (referencesAt initial port index).isSome ∨
      (referencesAt middle port index).isSome := by
    rcases mem_append.mp hcheck with hcheck | hcheck
    · obtain ⟨checkIndex, hget⟩ := getElem?_of_mem hcheck
      exact .inl (isSome_referencesAt_of_record pushFinished hmiddle
        (mk_mem_zipIdx_iff_getElem?.mpr hget) hmem)
    · obtain ⟨checkIndex, hget⟩ := getElem?_of_mem hcheck
      exact .inr (isSome_referencesAt_of_record pushUnfinished hmap
        (mk_mem_zipIdx_iff_getElem?.mpr hget) hmem)
  rw [hfinished, Option.isSome_map, or_self] at hsome
  rw [hunfinished, hfinished, Option.isSome_map, Option.isSome_map]
  exact hsome

end InputMap

section Counting

variable {checks : List JitCheck} {port index : ℕ}

theorem mem_referencesTo {checkIndex : ℕ} : checkIndex ∈ referencesTo checks port index ↔
      ∃ check, checks[checkIndex]? = some check ∧ check.mentions port index ≠ 0 := by
  rw [referencesTo, mem_flatMap]
  constructor
  · rintro ⟨⟨check, other⟩, hmem, hreplicate⟩
    obtain ⟨hne, rfl⟩ := mem_replicate.mp hreplicate
    exact ⟨check, mk_mem_zipIdx_iff_getElem?.mp hmem, hne⟩
  · rintro ⟨check, hget, hne⟩
    exact ⟨⟨check, checkIndex⟩, mk_mem_zipIdx_iff_getElem?.mpr hget, mem_replicate.mpr ⟨hne, rfl⟩⟩

theorem sum_map_referencesTo (weight : ℕ → ℕ) : ((referencesTo checks port index).map weight).sum =
      (checks.zipIdx.map fun check => check.1.mentions port index * weight check.2).sum := by
  rw [referencesTo, map_flatMap, flatMap_def, sum_flatten, map_map]
  refine congrArg List.sum (map_congr_left fun check _ => ?_)
  rw [Function.comp_apply, map_replicate, sum_replicate, smul_eq_mul]

variable {A : Type} [DecidableEq A] {setOf : ℕ → Finset A} {member : A}

theorem mem_foldl_symmDiff_iff {weight : ℕ → ℕ} {indices : List ℕ}
    (hweight : ∀ i ∈ indices, (member ∈ setOf i ↔ Odd (weight i))) {initial : Finset A} {count : ℕ}
    (hinitial : member ∈ initial ↔ Odd count) :
    member ∈ indices.foldl (fun sum i => symmDiff sum (setOf i)) initial ↔
      Odd (count + (indices.map weight).sum) := by
  induction indices generalizing initial count with
  | nil => exact hinitial
  | cons i indices ih =>
    have hmem : member ∈ symmDiff initial (setOf i) ↔ Odd (count + weight i) := by
      rw [Finset.mem_symmDiff, hinitial, hweight i mem_cons_self, Nat.odd_add,
        ← Nat.not_odd_iff_even]
      tauto
    rw [foldl_cons, map_cons, sum_cons, ← Nat.add_assoc]
    exact ih (fun j hj => hweight j (mem_cons_of_mem i hj)) hmem

end Counting

end QdkEc
