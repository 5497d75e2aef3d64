import QdkEc.DeqRuntime.CoordinatorLibrary

/-!
# Requests

This module models how both coordinators answer a request to execute an instruction: it
is checked, it gets an identifier, it is checked again, and only then the state changes.
The identifier is taken before the second check, so a request that is rejected by that
check has changed the state.  `none` is a panic.
-/

namespace QdkEc

/-- A request to execute a gadget. -/
structure GadgetRequest where
  gid : ℕ
  gtype : ℕ
  connectors : List Connector
  modifier : Option GadgetModifier

/-- An instruction: what it creates. -/
inductive CoordinatorInstruction (K : Type)
  | gadget (request : GadgetRequest)
  | checkModel (checkModel : CheckModel K)
  | errorModel (errorModel : ErrorModel K)

/-- The next identifier that is not in use. -/
def nextUnusedId {A : Type} (map : GidMap A) :
    ℕ → ℕ → Option ℕ
  | 0, _ => none
  | fuel + 1, id => if id ∈ map then nextUnusedId map fuel (id + 1) else some id

/-- The identifier of a new instance and the next one to try; zero asks for an unused one. -/
def assignId {A : Type} (map : GidMap A) (next id : ℕ) : Option (ℕ × ℕ) :=
  if id = 0 then
    (nextUnusedId map (map.keys.length + 1) next).map fun unused => (unused, unused + 1)
  else some (id, next)

section Answer

variable {S A B : Type}

/-- Answer a request: check it, assign an identifier, check it again with its identifier, and then
change the state. -/
def answer (state : S) (checked : Except Status A) (assign : A → Option (ℕ × S))
    (accept : A → ℕ → Except Status B) (commit : A → B → ℕ → S → Option S) :
    Option (S × Except Status ℕ) :=
  match checked with
  | .error status => some (state, .error status)
  | .ok request => do
      let assigned ← assign request
      match accept request assigned.1 with
      | .error status => some (assigned.2, .error status)
      | .ok accepted => do
          let next ← commit request accepted assigned.1 assigned.2
          some (next, .ok assigned.1)

end Answer

/-- What a request asks for, or an error. -/
def found {A : Type} (value : Option A) (error : CoordinatorError) : Except Status A :=
  value.elim (.error (.coordinator error)) .ok

/-- A validation of a request. -/
def validated {A : Type} (result : Except String A) : Except Status A :=
  result.mapError fun message => .coordinator (.invalidArgument message)

/-- A condition of a request. -/
def required (condition : Prop) [Decidable condition] (error : CoordinatorError) :
    Except Status Unit :=
  if condition then .ok () else .error (.coordinator error)

section Probabilities

variable {K : Type} [Zero K] [One K] [LinearOrder K] [ToString K]

def LoadedTypes.checkErrorModel (types : LoadedTypes K) (errorModel : ErrorModel K) :
    Except Status (ErrorModelType K × List (Option RemoteCheckModel)) := do
  let errorModelType ← found (types.errorModelTypes.lookup errorModel.etype)
    (.notFound s!"etype={errorModel.etype}")
  (errorModel.modifier.bind ErrorModelModifier.probabilityModifier).elim (.ok ()) fun modifier =>
    validated (validateProbabilityModifier modifier errorModelType.errors.length)
  let modifiedRemote ← validated
    (applyErrorModelReroutes errorModelType.remoteCheckModels errorModel.modifier)
  .ok (errorModelType, modifiedRemote)

end Probabilities

section Unused

variable {A : Type} {map : GidMap A}

theorem nextUnusedId_eq_some {fuel next id : ℕ} (hid : nextUnusedId map fuel next = some id) :
    next ≤ id ∧ id ∉ map := by
  induction fuel generalizing next with
  | zero => cases hid
  | succ fuel ih =>
    rw [nextUnusedId] at hid
    split at hid
    · exact (ih hid).imp_left (Nat.le_of_succ_le ·)
    · rename_i hunused
      cases hid
      exact ⟨le_rfl, hunused⟩

theorem nextUnusedId_eq_none {fuel next : ℕ} (hnone : nextUnusedId map fuel next = none) :
    ∀ offset < fuel, next + offset ∈ map := by
  induction fuel generalizing next with
  | zero => exact fun offset hoffset => absurd hoffset (Nat.not_lt_zero offset)
  | succ fuel ih =>
    rw [nextUnusedId] at hnone
    split at hnone
    · rename_i hused
      rintro (- | offset) hoffset
      · exact hused
      · have hmem := ih hnone offset (Nat.lt_of_succ_lt_succ hoffset)
        rwa [show next + 1 + offset = next + (offset + 1) by omega] at hmem
    · cases hnone

theorem exists_nextUnusedId (map : GidMap A) (next : ℕ) :
    ∃ id, nextUnusedId map (map.keys.length + 1) next = some id := by
  rcases hid : nextUnusedId map (map.keys.length + 1) next with - | id
  · have hused := nextUnusedId_eq_none hid
    have hsubset : (Finset.range (map.keys.length + 1)).image (next + ·) ⊆ map.keys.toFinset := by
      intro id hmem
      obtain ⟨offset, hoffset, rfl⟩ := Finset.mem_image.mp hmem
      exact List.mem_toFinset.mpr (hused offset (Finset.mem_range.mp hoffset))
    have hcard := Finset.card_le_card hsubset
    rw [Finset.card_image_of_injective _ (add_right_injective next), Finset.card_range] at hcard
    exact absurd (hcard.trans map.keys.toFinset_card_le) (Nat.not_succ_le_self _)
  · exact ⟨id, rfl⟩

end Unused

section Atomic

variable {S A B C : Type}

/-- A request is atomic: it changes nothing when it is rejected, and an accepted one gets an
identifier that was not in use. -/
structure IsAtomic (InUse : ℕ → Prop) (before after : S) (result : Except Status ℕ) : Prop where
  rejected : ∀ status, result = .error status → after = before
  accepted : ∀ id, result = .ok id → ¬InUse id

/-- The condition on an identifier under which a request is atomic: a request for an unused
identifier is accepted with it, and another identifier is accepted only if it is not in use. -/
def IdCondition (map : GidMap A) (next id : ℕ) (Accepts : ℕ → Prop) : Prop :=
  if id = 0 then ∀ unused ∈ nextUnusedId map (map.keys.length + 1) next, Accepts unused
  else Accepts id → id ∉ map

theorem assignId_cases {map : GidMap A} {next id assigned stored : ℕ}
    (hassigned : assignId map next id = some (assigned, stored)) :
    (id = 0 ∧ nextUnusedId map (map.keys.length + 1) next = some assigned ∧ stored ≠ next ∧
        assigned ∉ map) ∨ (id ≠ 0 ∧ assigned = id ∧ stored = next) := by
  rw [assignId] at hassigned
  split at hassigned
  · rename_i hzero
    obtain ⟨unused, hunused, heq⟩ := Option.map_eq_some_iff.mp hassigned
    obtain ⟨hle, hfresh⟩ := nextUnusedId_eq_some hunused
    cases heq
    exact .inl ⟨hzero, hunused, by omega, hfresh⟩
  · rename_i hzero
    cases hassigned
    exact .inr ⟨hzero, rfl, rfl⟩

theorem exists_assignId_of_map {map : GidMap A} {next id : ℕ} (store : ℕ → S) {assigned : ℕ × S}
    (hassigned : (assignId map next id).map (fun assigned => (assigned.1, store assigned.2)) =
      some assigned) :
    ∃ stored, assignId map next id = some (assigned.1, stored) ∧ assigned.2 = store stored := by
  obtain ⟨found, hfound, rfl⟩ := Option.map_eq_some_iff.mp hassigned
  exact ⟨found.2, hfound, rfl⟩

theorem answer_isAtomic_iff (map : GidMap A) (next id : ℕ) (store : ℕ → S) {state after : S}
    {checked : Except Status B} {assign : B → Option (ℕ × S)} {accept : B → ℕ → Except Status C}
    {commit : B → C → ℕ → S → Option S} {result : Except Status ℕ}
    (hassign : ∀ request assigned, assign request = some assigned →
      ∃ stored, assignId map next id = some (assigned.1, stored) ∧ assigned.2 = store stored)
    (hstore : ∀ stored, store stored = state ↔ stored = next)
    (hanswer : answer state checked assign accept commit = some (after, result)) :
    IsAtomic (· ∈ map) state after result ↔
      ∀ request, checked = .ok request → IdCondition map next id fun id =>
        ∃ accepted, accept request id = .ok accepted := by
  rcases checked with status | request
  · cases hanswer
    exact iff_of_true ⟨fun _ _ => rfl, nofun⟩ nofun
  obtain ⟨assigned, hassigned, hanswer⟩ := Option.bind_eq_some_iff.mp hanswer
  obtain ⟨stored, hid, hstate⟩ := hassign request assigned hassigned
  have hcondition : (∀ request', Except.ok request = Except.ok (ε := Status) request' →
      IdCondition map next id fun id => ∃ accepted, accept request' id = .ok accepted) ↔
      IdCondition map next id fun id => ∃ accepted, accept request id = .ok accepted :=
    ⟨fun h => h request rfl, fun h request' hsame => by cases hsame; exact h⟩
  rw [hcondition, IdCondition]
  rcases haccept : accept request assigned.1 with status | accepted
  · -- The second check rejects the request: the state is unchanged without a new identifier.
    rw [haccept] at hanswer
    cases hanswer
    have hatomic : IsAtomic (· ∈ map) state assigned.2 (.error status) ↔ stored = next := by
      rw [← hstore, ← hstate]
      exact ⟨fun h => h.rejected status rfl, fun h => ⟨fun _ _ => h, nofun⟩⟩
    rw [hatomic]
    rcases assignId_cases hid with ⟨hzero, hunused, hne, -⟩ | ⟨hzero, heq, hsame⟩
    · rw [if_pos hzero, hunused]
      refine iff_of_false hne fun h => ?_
      obtain ⟨accepted, haccepted⟩ := h _ rfl
      rw [haccept] at haccepted
      cases haccepted
    · rw [if_neg hzero, ← heq, haccept]
      exact iff_of_true hsame nofun
  · -- The request is accepted.
    rw [haccept] at hanswer
    obtain ⟨next', -, hanswer⟩ := Option.bind_eq_some_iff.mp hanswer
    cases hanswer
    have hatomic : IsAtomic (· ∈ map) state after (.ok assigned.1) ↔ assigned.1 ∉ map :=
      ⟨fun h => h.accepted _ rfl, fun h => ⟨nofun, fun id hid => by cases hid; exact h⟩⟩
    rw [hatomic]
    rcases assignId_cases hid with ⟨hzero, hunused, -, hfresh⟩ | ⟨hzero, heq, -⟩
    · rw [if_pos hzero, hunused]
      exact iff_of_true hfresh fun _ hsame => by cases hsame; exact ⟨accepted, haccept⟩
    · rw [if_neg hzero, ← heq]
      exact ⟨fun h _ => h, fun h => h ⟨accepted, haccept⟩⟩

end Atomic

end QdkEc
