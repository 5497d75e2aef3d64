import QdkEc.DeqRuntime.MonolithicRequests
import QdkEc.DeqRuntime.WindowRequests

/-!
# Which requests are atomic

This module proves when a request to load a library or to execute an instruction is
atomic, for both coordinators.  A library is inserted entry by entry, an identifier is
taken before the request is checked for the last time, and only error models are checked
for an identifier in use.
-/

namespace QdkEc

/-- A load request is atomic: it changes nothing when it is rejected, and an accepted library was
new. -/
structure LoadIsAtomic {K S : Type} (types : LoadedTypes K) (library : Library K) (before after : S)
    (result : Except Status Unit) :
    Prop where
  rejected : ∀ status, result = .error status → after = before
  accepted : result = .ok () → library.IsNew types

/-- The condition under which loading a library is atomic: it is rejected before its types are
looked at, or its types are new, or its first type is in use. -/
def LoadedTypes.LoadCondition {K W : Type} (types : LoadedTypes K) (config : CoordinatorConfig W)
    (accepting : Bool) (library : Library K) :
    Prop :=
  accepting = true →
    config.lossHandler.validateCapability library.gadgetTypes config.decoderSupportsLoss =
        .ok () →
      library.IsNew types ∨ library.FirstInUse types

section Conditions

variable {K : Type}

/-- The identifiers that an instruction must not get. -/
def WindowCoordinator.InUse (coordinator : WindowCoordinator K) :
    Option (CoordinatorInstruction K) → ℕ → Prop
  | none, _ => False
  | some (.gadget _), gid => gid ∈ coordinator.gadgets
  | some (.checkModel _), cid => cid ∈ coordinator.checkModels
  | some (.errorModel _), eid => eid ∈ coordinator.errorModels

/-- The identifiers that an instruction must not get. -/
def MonolithicServer.InUse (server : MonolithicServer K) :
    Option (CoordinatorInstruction K) → ℕ → Prop
  | none, _ => False
  | some (.gadget _), gid => gid ∈ server.gadgets
  | some (.checkModel _), cid => cid ∈ server.checkModels
  | some (.errorModel _), eid => eid ∈ server.errorModels

variable [Zero K] [One K] [LinearOrder K] [ToString K]

def WindowCoordinator.ExecuteCondition (coordinator : WindowCoordinator K) :
    Option (CoordinatorInstruction K) → Prop
  | none => True
  | some (.gadget request) =>
    IdCondition coordinator.gadgets coordinator.nextGid request.gid fun _ =>
      request.gtype ∈ coordinator.types.gadgetTypes
  | some (.checkModel checkModel) =>
    (∃ checked, coordinator.checkCheckModel checkModel = .ok checked) →
      IdCondition coordinator.checkModels coordinator.nextCid checkModel.cid fun cid =>
        cid ≠ futureCheckCid ∧
          (∀ terminal ∈ checkModel.terminalErrorModel, terminal.cid = 0 ∨ terminal.cid = cid) ∧
            checkModel.gid ∈ coordinator.gadgets
  | some (.errorModel errorModel) =>
    (∃ checked, coordinator.types.checkErrorModel errorModel = .ok checked) →
      errorModel.eid = 0 → ∃ checkModel,
        coordinator.checkModels.lookup errorModel.cid = some checkModel ∧
          checkModel.attachingEids.length < checkModel.checkModel.errorModelCount.getD 1

def MonolithicServer.ExecuteCondition (server : MonolithicServer K) :
    Option (CoordinatorInstruction K) → Prop
  | none => True
  | some (.gadget request) =>
    IdCondition server.gadgets server.nextGid request.gid fun _ =>
      request.gtype ∈ server.types.gadgetTypes
  | some (.checkModel checkModel) =>
    (∃ checked, server.checkCheckModel checkModel = .ok checked) →
      IdCondition server.checkModels server.nextCid checkModel.cid fun _ =>
        checkModel.gid ∈ server.gadgets
  | some (.errorModel errorModel) =>
    (∃ checked, server.types.checkErrorModel errorModel = .ok checked) →
      errorModel.eid = 0 → ∃ checkModel,
        server.checkModels.lookup errorModel.cid = some checkModel ∧
          checkModel.attachingEids.length < checkModel.checkModel.errorModelCount.getD 1

end Conditions

section Load

variable {K W : Type}

theorem LoadedTypes.loadLibrary_cases (types : LoadedTypes K) (config : CoordinatorConfig W)
    (accepting : Bool) (library : Library K) :
    ((types.loadLibrary config accepting library).1 = types ∧
        (∃ status, (types.loadLibrary config accepting library).2 = .error status) ∧
        ¬(accepting = true ∧
          config.lossHandler.validateCapability library.gadgetTypes config.decoderSupportsLoss =
            .ok ())) ∨ (types.loadLibrary config accepting library =
          ((types.load library).1, (types.load library).2.mapError .coordinator) ∧
        accepting = true ∧
        config.lossHandler.validateCapability library.gadgetTypes config.decoderSupportsLoss =
          .ok ()) := by
  cases accepting with
  | false => exact .inl ⟨rfl, ⟨_, rfl⟩, fun h => by cases h.1⟩
  | true =>
    rcases hcapability : config.lossHandler.validateCapability library.gadgetTypes
        config.decoderSupportsLoss with error | ok
    · refine .inl ⟨?_, ⟨.coordinator error, ?_⟩, fun h => by cases h.2⟩
      · rw [loadLibrary, tryGuard, if_pos rfl]
        rw [hcapability]
      · rw [loadLibrary, tryGuard, if_pos rfl]
        rw [hcapability]
    · refine .inr ⟨?_, rfl, rfl⟩
      rw [loadLibrary, tryGuard, if_pos rfl]
      rw [hcapability]

theorem LoadedTypes.loadLibrary_isAtomic_iff {S : Type} (types : LoadedTypes K) (state : S)
    (store : LoadedTypes K → S) (hstore : ∀ stored, store stored = state ↔ stored = types)
    (config : CoordinatorConfig W) (accepting : Bool) (library : Library K) :
    LoadIsAtomic types library state (store (types.loadLibrary config accepting library).1)
        (types.loadLibrary config accepting library).2 ↔
      types.LoadCondition config accepting library := by
  rcases types.loadLibrary_cases config accepting library with
    ⟨hsame, ⟨status, hstatus⟩, hrejected⟩ | ⟨hload, haccepting, hcapability⟩
  · refine iff_of_true ⟨fun _ _ => (hstore _).mpr hsame, fun hok => ?_⟩
      fun haccepting hcapability => absurd ⟨haccepting, hcapability⟩ hrejected
    rw [hstatus] at hok
    cases hok
  have hcondition : types.LoadCondition config accepting library ↔
      library.IsNew types ∨ library.FirstInUse types :=
    ⟨fun h => h haccepting hcapability, fun h _ _ => h⟩
  rw [hload, hcondition, ← types.load_eq_ok_iff, ← types.load_eq_self_iff, ← hstore]
  rcases hresult : (types.load library).2 with error | ok
  · constructor
    · exact fun h => .inr (h.rejected _ rfl)
    · rintro (hok | hsame)
      · cases hok
      · exact ⟨fun _ _ => hsame, nofun⟩
  · refine iff_of_true ⟨nofun, fun _ => (types.load_eq_ok_iff library).mp hresult⟩ (.inl rfl)

end Load

section Execute

variable {error : CoordinatorError}

theorem exists_found_eq_ok_iff {A : Type} {map : GidMap A} {id : ℕ} :
    (∃ value, found (map.lookup id) error = .ok value) ↔ id ∈ map := by
  rw [← AList.lookup_isSome, found]
  cases map.lookup id with
  | none => exact iff_of_false nofun nofun
  | some value => exact iff_of_true ⟨value, rfl⟩ rfl

theorem required_bind_eq_ok_iff {A : Type} {condition : Prop} [Decidable condition]
    {rest : Except Status A} {value : A} :
    (required condition error >>= fun _ => rest) = .ok value ↔ condition ∧ rest = .ok value := by
  rw [required]
  split
  · rename_i hcondition
    exact ⟨fun h => ⟨hcondition, h⟩, fun h => h.2⟩
  · rename_i hcondition
    exact iff_of_false nofun fun h => hcondition h.1

variable {K : Type}

theorem WindowCoordinator.exists_acceptCheckModel_iff (coordinator : WindowCoordinator K)
    (checkModel : CheckModel K) (cid : ℕ) :
    (∃ gadget, coordinator.acceptCheckModel checkModel cid = .ok gadget) ↔ cid ≠ futureCheckCid ∧
        (∀ terminal ∈ checkModel.terminalErrorModel, terminal.cid = 0 ∨ terminal.cid = cid) ∧
          checkModel.gid ∈ coordinator.gadgets := by
  simp only [acceptCheckModel, required_bind_eq_ok_iff, exists_and_left, exists_found_eq_ok_iff]

theorem found_bind_eq_ok_iff {A B : Type} {value : Option A}
    {rest : A → Except Status B} {result : B} :
    (found value error >>= rest) = .ok result ↔ ∃ a, value = some a ∧ rest a = .ok result := by
  cases value with
  | none => exact iff_of_false nofun nofun
  | some a => exact ⟨fun h => ⟨a, rfl, h⟩, fun ⟨_, hsame, h⟩ => Option.some_inj.mp hsame ▸ h⟩

theorem WindowCoordinator.exists_acceptErrorModel_iff (coordinator : WindowCoordinator K)
    (errorModel : ErrorModel K) (eid : ℕ) :
    (∃ accepted, coordinator.acceptErrorModel errorModel eid = .ok accepted) ↔
      eid ∉ coordinator.errorModels ∧ ∃ checkModel,
        coordinator.checkModels.lookup errorModel.cid = some checkModel ∧
          checkModel.attachingEids.length < checkModel.checkModel.errorModelCount.getD 1 := by
  simp only [acceptErrorModel, found_bind_eq_ok_iff, required_bind_eq_ok_iff, Except.ok.injEq]
  exact ⟨fun ⟨_, checkModel, hlookup, hunused, hcount, _⟩ =>
      ⟨hunused, checkModel, hlookup, hcount⟩,
    fun ⟨hunused, checkModel, hlookup, hcount⟩ =>
      ⟨checkModel, checkModel, hlookup, hunused, hcount, rfl⟩⟩

theorem MonolithicServer.exists_acceptErrorModel_iff (server : MonolithicServer K)
    (errorModel : ErrorModel K) (eid : ℕ) :
    (∃ accepted, server.acceptErrorModel errorModel eid = .ok accepted) ↔
      eid ∉ server.errorModels ∧ ∃ checkModel,
        server.checkModels.lookup errorModel.cid = some checkModel ∧
          checkModel.attachingEids.length < checkModel.checkModel.errorModelCount.getD 1 := by
  simp only [acceptErrorModel, found_bind_eq_ok_iff, required_bind_eq_ok_iff, Except.ok.injEq]
  exact ⟨fun ⟨_, checkModel, hlookup, hunused, hcount, _⟩ =>
      ⟨hunused, checkModel, hlookup, hcount⟩,
    fun ⟨hunused, checkModel, hlookup, hcount⟩ =>
      ⟨checkModel, checkModel, hlookup, hunused, hcount, rfl⟩⟩

theorem idCondition_errorModel_iff {A : Type} {map : GidMap A} {next id : ℕ} {Waits : Prop} :
    (IdCondition map next id fun id => id ∉ map ∧ Waits) ↔ (id = 0 → Waits) := by
  rw [IdCondition]
  split
  · rename_i hzero
    constructor
    · intro h _
      obtain ⟨unused, hunused⟩ := exists_nextUnusedId map next
      exact (h unused hunused).2
    · exact fun h unused hunused => ⟨(nextUnusedId_eq_some hunused).2, h hzero⟩
  · rename_i hzero
    exact iff_of_true (fun h => h.1) fun h => absurd h hzero

variable [Zero K] [One K] [LinearOrder K] [ToString K]

variable {result : Except Status ℕ} {coordinator after : WindowCoordinator K}

omit [Zero K] [One K] [LinearOrder K] [ToString K] in
theorem WindowCoordinator.executeGadget_isAtomic_iff {request : GadgetRequest}
    (hexecute : coordinator.executeGadget request = some (after, result)) :
    IsAtomic (· ∈ coordinator.gadgets) coordinator after result ↔
      IdCondition coordinator.gadgets coordinator.nextGid request.gid fun _ =>
        request.gtype ∈ coordinator.types.gadgetTypes := by
  rw [executeGadget] at hexecute
  rw [answer_isAtomic_iff coordinator.gadgets coordinator.nextGid request.gid
    (fun nextGid => { coordinator with nextGid })
    (fun _ _ => exists_assignId_of_map fun nextGid => { coordinator with nextGid })
    (fun _ => ⟨fun h => congrArg nextGid h, fun h => h ▸ rfl⟩) hexecute]
  simp only [exists_found_eq_ok_iff]
  exact ⟨fun h => h () trivial, fun h _ _ => h⟩

theorem WindowCoordinator.executeCheckModel_isAtomic_iff {checkModel : CheckModel K}
    (hexecute : coordinator.executeCheckModel checkModel = some (after, result)) :
    IsAtomic (· ∈ coordinator.checkModels) coordinator after result ↔
      ((∃ checked, coordinator.checkCheckModel checkModel = .ok checked) →
        IdCondition coordinator.checkModels coordinator.nextCid checkModel.cid fun cid =>
          cid ≠ futureCheckCid ∧
            (∀ terminal ∈ checkModel.terminalErrorModel, terminal.cid = 0 ∨ terminal.cid = cid) ∧
              checkModel.gid ∈ coordinator.gadgets) := by
  rw [answer_isAtomic_iff coordinator.checkModels coordinator.nextCid checkModel.cid
    (fun nextCid => { coordinator with nextCid })
    (fun _ _ => exists_assignId_of_map fun nextCid => { coordinator with nextCid })
    (fun _ => ⟨fun h => congrArg nextCid h, fun h => h ▸ rfl⟩) hexecute]
  simp only [exists_acceptCheckModel_iff, forall_exists_index]

theorem WindowCoordinator.executeErrorModel_isAtomic_iff {errorModel : ErrorModel K}
    (hexecute : coordinator.executeErrorModel errorModel = some (after, result)) :
    IsAtomic (· ∈ coordinator.errorModels) coordinator after result ↔
      ((∃ checked, coordinator.types.checkErrorModel errorModel = .ok checked) →
        errorModel.eid = 0 → ∃ checkModel,
          coordinator.checkModels.lookup errorModel.cid = some checkModel ∧
            checkModel.attachingEids.length < checkModel.checkModel.errorModelCount.getD 1) := by
  have hassign : ∀ (checked : ErrorModelType K × List (Option RemoteCheckModel)) assigned, (do
      let _ ← resolveAll checked.2 (coordinator.ownerGid errorModel.cid) coordinator.gadgets
      let assigned ← assignId coordinator.errorModels coordinator.nextEid errorModel.eid
      some (assigned.1, { coordinator with nextEid := assigned.2 })) = some assigned →
      ∃ stored, assignId coordinator.errorModels coordinator.nextEid errorModel.eid =
        some (assigned.1, stored) ∧ assigned.2 = { coordinator with nextEid := stored } := by
    intro checked assigned hassigned
    obtain ⟨_, -, hassigned⟩ := Option.bind_eq_some_iff.mp hassigned
    obtain ⟨found, hfound, hsame⟩ := Option.bind_eq_some_iff.mp hassigned
    cases hsame
    exact ⟨found.2, hfound, rfl⟩
  rw [answer_isAtomic_iff coordinator.errorModels coordinator.nextEid errorModel.eid
    (fun nextEid => { coordinator with nextEid }) hassign
    (fun _ => ⟨fun h => congrArg nextEid h, fun h => h ▸ rfl⟩) hexecute]
  simp only [exists_acceptErrorModel_iff, idCondition_errorModel_iff, forall_exists_index]

theorem WindowCoordinator.execute_isAtomic_iff
    {accepting : Bool} {instruction : Option (CoordinatorInstruction K)}
    (hexecute : coordinator.execute accepting instruction = some (after, result)) :
    IsAtomic (coordinator.InUse instruction) coordinator after result ↔
      (accepting = true → coordinator.ExecuteCondition instruction) := by
  cases accepting with
  | false =>
    cases hexecute
    exact iff_of_true ⟨fun _ _ => rfl, nofun⟩ nofun
  | true =>
    rw [forall_prop_of_true rfl]
    rcases instruction with - | request | checkModel | errorModel
    · cases hexecute
      exact iff_of_true ⟨fun _ _ => rfl, nofun⟩ trivial
    · exact executeGadget_isAtomic_iff hexecute
    · exact executeCheckModel_isAtomic_iff hexecute
    · exact executeErrorModel_isAtomic_iff hexecute

omit [Zero K] [One K] [LinearOrder K] [ToString K] in
theorem MonolithicServer.executeGadget_isAtomic_iff {server after : MonolithicServer K}
    {request : GadgetRequest} (hexecute : server.executeGadget request = some (after, result)) :
    IsAtomic (· ∈ server.gadgets) server after result ↔
      IdCondition server.gadgets server.nextGid request.gid fun _ =>
        request.gtype ∈ server.types.gadgetTypes := by
  rw [executeGadget] at hexecute
  rw [answer_isAtomic_iff server.gadgets server.nextGid request.gid
    (fun nextGid => { server with nextGid })
    (fun _ _ => exists_assignId_of_map fun nextGid => { server with nextGid })
    (fun _ => ⟨fun h => congrArg nextGid h, fun h => h ▸ rfl⟩) hexecute]
  simp only [exists_found_eq_ok_iff]
  exact ⟨fun h => h () trivial, fun h _ _ => h⟩

omit [Zero K] [One K] [LinearOrder K] [ToString K] in
theorem MonolithicServer.executeCheckModel_isAtomic_iff {server after : MonolithicServer K}
    {checkModel : CheckModel K}
    (hexecute : server.executeCheckModel checkModel = some (after, result)) :
    IsAtomic (· ∈ server.checkModels) server after result ↔
      ((∃ checked, server.checkCheckModel checkModel = .ok checked) →
        IdCondition server.checkModels server.nextCid checkModel.cid fun _ =>
          checkModel.gid ∈ server.gadgets) := by
  rw [executeCheckModel] at hexecute
  rw [answer_isAtomic_iff server.checkModels server.nextCid checkModel.cid
    (fun nextCid => { server with nextCid })
    (fun _ _ => exists_assignId_of_map fun nextCid => { server with nextCid })
    (fun _ => ⟨fun h => congrArg nextCid h, fun h => h ▸ rfl⟩) hexecute]
  simp only [acceptCheckModel, exists_found_eq_ok_iff, forall_exists_index]

theorem MonolithicServer.executeErrorModel_isAtomic_iff {server after : MonolithicServer K}
    {errorModel : ErrorModel K}
    (hexecute : server.executeErrorModel errorModel = some (after, result)) :
    IsAtomic (· ∈ server.errorModels) server after result ↔
      ((∃ checked, server.types.checkErrorModel errorModel = .ok checked) →
        errorModel.eid = 0 → ∃ checkModel,
          server.checkModels.lookup errorModel.cid = some checkModel ∧
            checkModel.attachingEids.length < checkModel.checkModel.errorModelCount.getD 1) := by
  rw [answer_isAtomic_iff server.errorModels server.nextEid errorModel.eid
    (fun nextEid => { server with nextEid })
    (fun _ _ => exists_assignId_of_map fun nextEid => { server with nextEid })
    (fun _ => ⟨fun h => congrArg nextEid h, fun h => h ▸ rfl⟩) hexecute]
  simp only [exists_acceptErrorModel_iff, idCondition_errorModel_iff, forall_exists_index]

theorem MonolithicServer.execute_isAtomic_iff {server after : MonolithicServer K} {accepting : Bool}
    {instruction : Option (CoordinatorInstruction K)}
    (hexecute : server.execute accepting instruction = some (after, result)) :
    IsAtomic (server.InUse instruction) server after result ↔
      (accepting = true → server.ExecuteCondition instruction) := by
  cases accepting with
  | false =>
    cases hexecute
    exact iff_of_true ⟨fun _ _ => rfl, nofun⟩ nofun
  | true =>
    rw [forall_prop_of_true rfl]
    rcases instruction with - | request | checkModel | errorModel
    · cases hexecute
      exact iff_of_true ⟨fun _ _ => rfl, nofun⟩ trivial
    · exact executeGadget_isAtomic_iff hexecute
    · exact executeCheckModel_isAtomic_iff hexecute
    · exact executeErrorModel_isAtomic_iff hexecute

end Execute

section Both

variable {K W : Type} [Zero K] [One K] [LinearOrder K] [ToString K]

/-- Which requests are atomic: in both coordinators and in every state, a request changes
nothing when it is rejected and creates only what was not in use, exactly when its condition
holds. -/
theorem requests_isAtomic_iff (config : CoordinatorConfig W) (accepting : Bool) :
    (∀ (coordinator : WindowCoordinator K) library,
      LoadIsAtomic coordinator.types library coordinator
          (coordinator.loadLibrary config accepting library).1
          (coordinator.loadLibrary config accepting library).2 ↔
        coordinator.types.LoadCondition config accepting library) ∧
    (∀ (server : MonolithicServer K) library,
      LoadIsAtomic server.types library server (server.loadLibrary config accepting library).1
          (server.loadLibrary config accepting library).2 ↔
        server.types.LoadCondition config accepting library) ∧
    (∀ (coordinator after : WindowCoordinator K) instruction result,
      coordinator.execute accepting instruction = some (after, result) →
        (IsAtomic (coordinator.InUse instruction) coordinator after result ↔
          (accepting = true → coordinator.ExecuteCondition instruction))) ∧
    ∀ (server after : MonolithicServer K) instruction result,
      server.execute accepting instruction = some (after, result) →
        (IsAtomic (server.InUse instruction) server after result ↔
          (accepting = true → server.ExecuteCondition instruction)) := by
  refine ⟨fun coordinator library => ?_, fun server library => ?_,
    fun _ _ _ _ => WindowCoordinator.execute_isAtomic_iff,
    fun _ _ _ _ => MonolithicServer.execute_isAtomic_iff⟩
  · exact LoadedTypes.loadLibrary_isAtomic_iff coordinator.types coordinator
      (fun types => { coordinator with types })
      (fun _ => ⟨fun h => congrArg WindowCoordinator.types h, fun h => h ▸ rfl⟩) config accepting
      library
  · exact LoadedTypes.loadLibrary_isAtomic_iff server.types server
      (fun types => { server with types })
      (fun _ => ⟨fun h => congrArg MonolithicServer.types h, fun h => h ▸ rfl⟩) config accepting
      library

end Both

def ignoringLosses : CoordinatorConfig ℕ :=
  ⟨.ignore, false, none⟩

/-- A library whose second port type has the identifier of the first one. -/
def libraryWithDuplicate : Library ℚ :=
  ⟨[⟨5, 1⟩, ⟨5, 1⟩], [], [], []⟩

/-- The library without its duplicate. -/
def libraryCorrected : Library ℚ :=
  ⟨[⟨5, 1⟩], [], [], []⟩

def rejectedDuplicate : WindowCoordinator ℚ × Except Status Unit :=
  (WindowCoordinator.new ℚ).loadLibrary ignoringLosses true libraryWithDuplicate

/-- A gadget type without ports and measurements. -/
def pointType : GadgetType where
  inputs := []
  outputs := []
  measurementCount := 0
  readoutCount := 0
  correctionPropagation := some ⟨0, 1, [], []⟩
  readoutPropagation := some ⟨0, 1, [], []⟩
  logicalCorrection := some ⟨0, 0, [], []⟩
  physicalCorrection := some ⟨0, 0, [], []⟩

/-- A library with a gadget type without ports and a check model type without checks. -/
def libraryOfPoints : Library ℚ :=
  ⟨[], [⟨1, pointType, [], none, false⟩], [⟨1, 1, [], []⟩], []⟩

/-- Two gadgets, and a check model for each of them with the same identifier. -/
def sharedCheckModel : List (CoordinatorInstruction ℚ) :=
  [.gadget ⟨1, 1, [], none⟩, .gadget ⟨2, 1, [], none⟩, .checkModel ⟨1, 1, [], 7, none, none⟩,
    .checkModel ⟨1, 2, [], 7, none, none⟩]

/-- The answers to instructions, one after another. -/
def WindowCoordinator.answers :
    WindowCoordinator ℚ → List (CoordinatorInstruction ℚ) → Option (List (Except Status ℕ))
  | _, [] => some []
  | coordinator, instruction :: rest => do
      let answered ← coordinator.execute true (some instruction)
      let answers ← answered.1.answers rest
      some (answered.2 :: answers)

/-- A rejected library leaves its first type behind, so that the corrected library is rejected
too, and a check model may get the identifier of another one. -/
theorem requests_not_isAtomic :
    rejectedDuplicate.2 = .error (.coordinator (.alreadyExists "ptype=5")) ∧
      ¬LoadIsAtomic (WindowCoordinator.new ℚ).types libraryWithDuplicate (WindowCoordinator.new ℚ)
        rejectedDuplicate.1 rejectedDuplicate.2 ∧
      ((WindowCoordinator.new ℚ).loadLibrary ignoringLosses true libraryCorrected).2 = .ok () ∧
      (rejectedDuplicate.1.loadLibrary ignoringLosses true libraryCorrected).2 =
        .error (.coordinator (.alreadyExists "ptype=5")) ∧
      ((WindowCoordinator.new ℚ).loadLibrary ignoringLosses true libraryOfPoints).1.answers
        sharedCheckModel = some [.ok 1, .ok 2, .ok 7, .ok 7] := by
  refine ⟨rfl, fun hatomic => ?_, rfl, rfl, rfl⟩
  have hsame := hatomic.rejected _ rfl
  have hnew : (5 : ℕ) ∉ (WindowCoordinator.new ℚ).types.portTypes := by decide
  rw [← hsame] at hnew
  exact hnew (by decide)

/-- A gadget of a type that is not loaded, which asks for an identifier. -/
def unknownGadget : CoordinatorInstruction ℚ :=
  .gadget ⟨0, 9, [], none⟩

/-- A rejected gadget has used up an identifier. -/
theorem requests_isAtomic_iff_unknownGadget :
    ¬IsAtomic ((WindowCoordinator.new ℚ).InUse (some unknownGadget)) (WindowCoordinator.new ℚ)
      { WindowCoordinator.new ℚ with nextGid := 2 }
      (.error (.coordinator (.notFound "gtype=9"))) := by
  have hiff := (requests_isAtomic_iff (K := ℚ) ignoringLosses true).2.2.1
    (WindowCoordinator.new ℚ) { WindowCoordinator.new ℚ with nextGid := 2 } (some unknownGadget)
    (.error (.coordinator (.notFound "gtype=9"))) rfl
  rw [hiff]
  intro hcondition
  exact absurd (hcondition rfl 1 rfl) (by decide)

end QdkEc
