import QdkEc.DeqRuntime.JitController
import QdkEc.DeqRuntime.MonolithicRequests
import QdkEc.DeqRuntime.RemoteEntries

/-!
# The cache of types is transparent

This module proves that a coordinator sees the same models with and without the cache of
types.  A cached type has the checks or the errors of the type that was compiled, so it
has as many remote entries, and the reroutes that are sent with each instance give all of
them anew.
-/

namespace QdkEc

open AList

/-- An error model with what its type and its reroutes say. -/
structure EffectiveErrorModel (K : Type) where
  cid : ℕ
  eid : ℕ
  ctype : ℕ
  errors : List (ModelError K)
  remoteCheckModels : List (Option RemoteCheckModel)
  probabilityModifier : Option (ProbabilityModifier K)

/-- A check model with what its type and its reroutes say, and its terminal model. -/
structure EffectiveCheckModel (K : Type) where
  cid : ℕ
  gid : ℕ
  gtype : ℕ
  checks : List Check
  remoteGadgets : List (Option RemoteGadget)
  errorModelCount : Option ℕ
  terminalErrorModel : Option (EffectiveErrorModel K)

/-- What a coordinator sees of a request. -/
inductive SeenRequest (K : Type)
  | gadget (request : GadgetRequest)
  | checkModel (checkModel : Except Status (EffectiveCheckModel K))
  | errorModel (errorModel : Except Status (EffectiveErrorModel K))
  | reset (resetLibrary : Bool)

/-- What a coordinator answers, by the types of ports and gadgets and by what it has seen. -/
structure CoordinatorAnswers (K : Type) where
  execute : GidMap PortType → GidMap CoordinatorGadgetType → List (SeenRequest K) →
    Option (Except Status ℕ)
  reset : List (SeenRequest K) → Except Status Unit

/-- The types that a coordinator has loaded, and what it has seen. -/
structure Recorder (K : Type) where
  types : LoadedTypes K
  seen : List (SeenRequest K)

/-- A coordinator that was started. -/
def Recorder.new (K : Type) : Recorder K :=
  ⟨⟨∅, ∅, ∅, ∅⟩, []⟩

section Effective

variable {K : Type} [Zero K] [One K] [LinearOrder K] [ToString K]

def LoadedTypes.effectiveErrorModel (types : LoadedTypes K) (errorModel : ErrorModel K) :
    Except Status (EffectiveErrorModel K) := do
  let checked ← types.checkErrorModel errorModel
  .ok {
    cid := errorModel.cid
    eid := errorModel.eid
    ctype := checked.1.ctype
    errors := checked.1.errors
    remoteCheckModels := checked.2
    probabilityModifier := errorModel.modifier.bind ErrorModelModifier.probabilityModifier }

def LoadedTypes.effectiveCheckModel (types : LoadedTypes K) (checkModel : CheckModel K) :
    Except Status (EffectiveCheckModel K) := do
  let checkModelType ← found (types.checkModelTypes.lookup checkModel.ctype)
    (.notFound s!"ctype={checkModel.ctype}")
  let modifiedRemote ← validated
    (applyCheckModelReroutes checkModelType.remoteGadgets checkModel.rerouteRemoteGadgets)
  .ok {
    cid := checkModel.cid
    gid := checkModel.gid
    gtype := checkModelType.gtype
    checks := checkModelType.checks
    remoteGadgets := modifiedRemote
    errorModelCount := checkModel.errorModelCount
    terminalErrorModel := checkModel.terminalErrorModel.bind fun terminal =>
      (types.effectiveErrorModel terminal).toOption }

/-- What a coordinator sees of an instruction. -/
def LoadedTypes.effectiveRequest (types : LoadedTypes K) :
    CoordinatorInstruction K → SeenRequest K
  | .gadget request => .gadget request
  | .checkModel checkModel => .checkModel (types.effectiveCheckModel checkModel)
  | .errorModel errorModel => .errorModel (types.effectiveErrorModel errorModel)

/-- Record a request, and answer it. -/
def Recorder.see (recorder : Recorder K) (answers : CoordinatorAnswers K)
    (request : SeenRequest K) :
    Option (Recorder K × Except Status ℕ) :=
  (answers.execute recorder.types.portTypes recorder.types.gadgetTypes
    (recorder.seen ++ [request])).map fun answer =>
      ({ recorder with seen := recorder.seen ++ [request] }, answer)

/-- A coordinator that answers by what it has seen. -/
def recorderClient {W : Type} (config : CoordinatorConfig W) (answers : CoordinatorAnswers K) :
    CoordinatorClient K (Recorder K) where
  loadLibrary recorder library :=
    let loaded := recorder.types.loadLibrary config true library
    ({ recorder with types := loaded.1 }, loaded.2)
  execute recorder instruction :=
    recorder.see answers (recorder.types.effectiveRequest instruction)
  reset recorder resetLibrary :=
    let seen := recorder.seen ++ [.reset resetLibrary]
    (⟨if resetLibrary then (Recorder.new K).types else recorder.types, seen⟩, answers.reset seen)

def JitController.seen (controller : JitController K (Recorder K)) : List (SeenRequest K) :=
  controller.coordinator.elim [] Recorder.seen

end Effective

section Types

variable {K : Type} [Zero K] [One K] [LinearOrder K] [ToString K]

theorem LoadedTypes.effectiveCheckModel_eq {types : LoadedTypes K} {checkModel : CheckModel K}
    {cached checkModelType : CheckModelType}
    (hcached : types.checkModelTypes.lookup checkModel.ctype = some cached)
    (hkey : cached.key = checkModelType.key) (hremotes : cached.UsesRemotes)
    (hremotes' : checkModelType.UsesRemotes)
    (hreroutes : checkModel.rerouteRemoteGadgets = buildCheckModelModifier checkModelType) :
    types.effectiveCheckModel checkModel =
      (validated (applyCheckModelReroutes checkModelType.remoteGadgets
          (buildCheckModelModifier checkModelType))).map fun modifiedRemote => {
        cid := checkModel.cid
        gid := checkModel.gid
        gtype := checkModelType.gtype
        checks := checkModelType.checks
        remoteGadgets := modifiedRemote
        errorModelCount := checkModel.errorModelCount
        terminalErrorModel := checkModel.terminalErrorModel.bind fun terminal =>
          (types.effectiveErrorModel terminal).toOption } := by
  obtain ⟨hgtype, hchecks⟩ := CheckModelTypeKey.mk.inj hkey
  have hlength : cached.remoteGadgets.length = checkModelType.remoteGadgets.length := by
    rw [CheckModelType.UsesRemotes, hchecks] at hremotes
    exact length_eq_of_forall_lt_iff hremotes hremotes'
  have happly : applyCheckModelReroutes cached.remoteGadgets
      (buildCheckModelModifier checkModelType) =
        applyCheckModelReroutes checkModelType.remoteGadgets
          (buildCheckModelModifier checkModelType) :=
    applyRemoteReroutes_congr hlength _
  rw [effectiveCheckModel, hcached, hreroutes]
  dsimp only [found, Option.elim_some, bind, Except.bind]
  rw [happly, hgtype, hchecks]
  cases validated (applyCheckModelReroutes checkModelType.remoteGadgets
      (buildCheckModelModifier checkModelType)) with
  | error status => rfl
  | ok modifiedRemote => rfl

/-- What an error model amounts to, from what its type says. -/
def effectiveErrorModelOf (errorModel : ErrorModel K) (key : ErrorModelTypeKey K)
    (rerouted : Except String (List (Option RemoteCheckModel))) :
    Except Status (EffectiveErrorModel K) := do
  (errorModel.modifier.bind ErrorModelModifier.probabilityModifier).elim (.ok ()) fun modifier =>
    validated (validateProbabilityModifier modifier key.errors.length)
  let modifiedRemote ← validated rerouted
  .ok {
    cid := errorModel.cid
    eid := errorModel.eid
    ctype := key.ctype
    errors := key.errors
    remoteCheckModels := modifiedRemote
    probabilityModifier := errorModel.modifier.bind ErrorModelModifier.probabilityModifier }

theorem LoadedTypes.effectiveErrorModel_of_lookup {types : LoadedTypes K}
    {errorModel : ErrorModel K} {errorModelType : ErrorModelType K}
    (hlookup : types.errorModelTypes.lookup errorModel.etype = some errorModelType) :
    types.effectiveErrorModel errorModel = effectiveErrorModelOf errorModel errorModelType.key
      (applyErrorModelReroutes errorModelType.remoteCheckModels errorModel.modifier) := by
  rw [effectiveErrorModel, checkErrorModel, effectiveErrorModelOf, hlookup]
  dsimp only [found, Option.elim_some, bind, Except.bind, ErrorModelType.key]
  cases (errorModel.modifier.bind ErrorModelModifier.probabilityModifier).elim (Except.ok ())
      fun modifier =>
        validated (validateProbabilityModifier modifier errorModelType.errors.length) with
  | error status => rfl
  | ok _ =>
    cases validated (applyErrorModelReroutes errorModelType.remoteCheckModels
        errorModel.modifier) with
    | error status => rfl
    | ok modifiedRemote => rfl

theorem LoadedTypes.effectiveErrorModel_eq {types : LoadedTypes K}
    {errorModel compiled : ErrorModel K} {cached errorModelType : ErrorModelType K}
    (hcached : types.errorModelTypes.lookup errorModel.etype = some cached)
    (hkey : cached.key = errorModelType.key) (hremotes : cached.UsesRemotes)
    (hremotes' : errorModelType.UsesRemotes)
    (hmodifier : errorModel.modifier = buildErrorModelModifier errorModelType compiled) :
    types.effectiveErrorModel errorModel = effectiveErrorModelOf errorModel errorModelType.key
      (applyErrorModelReroutes errorModelType.remoteCheckModels errorModel.modifier) := by
  obtain ⟨-, herrors⟩ := ErrorModelTypeKey.mk.inj hkey
  have hlength : cached.remoteCheckModels.length = errorModelType.remoteCheckModels.length := by
    rw [ErrorModelType.UsesRemotes, herrors] at hremotes
    exact length_eq_of_forall_lt_iff hremotes hremotes'
  have happly : applyErrorModelReroutes cached.remoteCheckModels errorModel.modifier =
      applyErrorModelReroutes errorModelType.remoteCheckModels errorModel.modifier := by
    rw [hmodifier, buildErrorModelModifier]
    split
    · rename_i hnone
      have hnil : errorModelType.remoteCheckModels = [] := by
        have hmap := List.map_eq_nil_iff.mp hnone.1
        rwa [List.zipIdx_eq_nil_iff] at hmap
      rw [hnil, List.length_nil, List.length_eq_zero_iff] at hlength
      rw [hnil, hlength]
    · exact applyRemoteReroutes_congr hlength _
  rw [effectiveErrorModel_of_lookup hcached, happly, hkey]

end Types

section Numbers

variable {K : Type}

theorem loadTypes_consecutive {A : Type} {idOf : A → ℕ} {library : List A} {types : GidMap A}
    {base : ℕ} (hids : ∀ j type, library[j]? = some type → idOf type = base + j)
    (hlt : ∀ id ∈ types, id < base) : (loadTypes idOf types library).2 = none ∧
      (∀ id < base, (loadTypes idOf types library).1.lookup id = types.lookup id) ∧
      (∀ j, (loadTypes idOf types library).1.lookup (base + j) = library[j]?) ∧
      ∀ id ∈ (loadTypes idOf types library).1, id < base + library.length := by
  induction library generalizing types base with
  | nil =>
    refine ⟨rfl, fun _ _ => rfl, fun j => ?_, hlt⟩
    exact lookup_eq_none.mpr fun hmem => absurd (hlt _ hmem) (by omega)
  | cons first rest ih =>
    have hfirst : idOf first = base := hids 0 first rfl
    have hnew : idOf first ∉ types := fun hmem => absurd (hlt _ hmem) (by omega)
    have hrest : ∀ j type, rest[j]? = some type → idOf type = base + 1 + j := by
      intro j type htype
      have hid := hids (j + 1) type htype
      omega
    have hinsert : ∀ id ∈ types.insert (idOf first) first, id < base + 1 := by
      intro id hid
      rcases mem_insert _ |>.mp hid with rfl | hid
      · omega
      · exact (hlt id hid).trans (Nat.lt_succ_self _)
    obtain ⟨hloaded, hold, hlater, hbound⟩ := ih hrest hinsert
    rw [loadTypes, if_neg hnew]
    refine ⟨hloaded, fun id hid => ?_, fun j => ?_, fun id hid => ?_⟩
    · rw [hold id (by omega), lookup_insert_ne (by omega)]
    · cases j with
      | zero =>
        rw [Nat.add_zero, hold base (Nat.lt_succ_self _), ← hfirst, lookup_insert]
        rfl
      | succ j =>
        rw [show base + (j + 1) = base + 1 + j by omega, hlater, List.getElem?_cons_succ]
    · have hid := hbound id hid
      rw [List.length_cons]
      omega

/-- Types that are loaded later leave the earlier ones as they are. -/
structure ExtendsTypes (next later : ℕ) (types types' : GidMap (ErrorModelType K)) : Prop where
  le : next ≤ later
  lookup : ∀ etype < next, types'.lookup etype = types.lookup etype

theorem ExtendsTypes.refl {next : ℕ} {types : GidMap (ErrorModelType K)} :
    ExtendsTypes next next types types :=
  ⟨le_rfl, fun _ _ => rfl⟩

/-- The same types of ports and gadgets are loaded. -/
structure LoadedTypes.SameGadgets (types types' : LoadedTypes K) : Prop where
  portTypes : types.portTypes = types'.portTypes
  gadgetTypes : types.gadgetTypes = types'.gadgetTypes

theorem LoadedTypes.loadLibrary_checkModelType {W : Type} {types : LoadedTypes K}
    {config : CoordinatorConfig W} {checkModelType : CheckModelType}
    (hnew : checkModelType.ctype ∉ types.checkModelTypes) :
    types.loadLibrary config true ⟨[], [], [checkModelType], []⟩ = ({ types with
        checkModelTypes := types.checkModelTypes.insert checkModelType.ctype checkModelType },
        .ok ()) := by
  simp [loadLibrary, tryGuard, LossHandler.validateCapability, load, loadTypes, hnew,
    Except.mapError]

theorem LoadedTypes.loadLibrary_errorModelType {W : Type} {types : LoadedTypes K}
    {config : CoordinatorConfig W} {errorModelType : ErrorModelType K}
    (hnew : errorModelType.etype ∉ types.errorModelTypes) :
    types.loadLibrary config true ⟨[], [], [], [errorModelType]⟩ = ({ types with
        errorModelTypes := types.errorModelTypes.insert errorModelType.etype errorModelType },
        .ok ()) := by
  simp [loadLibrary, tryGuard, LossHandler.validateCapability, load, loadTypes, hnew,
    Except.mapError]

end Numbers

namespace JitController

variable {K S : Type} [DecidableEq K]

/-- The numbers of a controller are new to its coordinator, and a cached type is loaded, with its
key and the remote entries that it uses. -/
structure Consistent (controller : JitController K S) (types : LoadedTypes K) : Prop where
  ctypes_lt : ∀ id ∈ types.checkModelTypes, id < controller.nextCtype
  etypes_lt : ∀ id ∈ types.errorModelTypes, id < controller.nextEtype
  cachedChecks : ∀ key ctype, controller.typeCache.checkModelTypes.lookup key = some ctype →
    ∃ cached, types.checkModelTypes.lookup ctype = some cached ∧ cached.key = key ∧
      cached.UsesRemotes
  cachedErrors : ∀ key etype, controller.typeCache.errorModelTypes.lookup key = some etype →
    ∃ cached, types.errorModelTypes.lookup etype = some cached ∧ cached.key = key ∧
      cached.UsesRemotes

end JitController

namespace JitController

section Load

variable {K W : Type} [Zero K] [One K] [LinearOrder K] [ToString K] {config : CoordinatorConfig W}
  {answers : CoordinatorAnswers K}
  {controller : JitController K (Recorder K)} {recorder : Recorder K}

theorem Consistent.getOrLoadCtype (h : controller.Consistent recorder.types)
    {checkModelType : CheckModelType} (huses : checkModelType.UsesRemotes) :
    ∃ nextCtype typeCache loaded ctype cached,
      controller.getOrLoadCtype (recorderClient config answers) recorder checkModelType =
        some ({ controller with nextCtype := nextCtype, typeCache := typeCache },
          { recorder with types := loaded }, ctype) ∧
      Consistent { controller with nextCtype := nextCtype, typeCache := typeCache } loaded ∧
      recorder.types.SameGadgets loaded ∧
      loaded.errorModelTypes = recorder.types.errorModelTypes ∧
      loaded.checkModelTypes.lookup ctype = some cached ∧ cached.key = checkModelType.key ∧
      cached.UsesRemotes := by
  cases hlookup : (if controller.cacheEnabled then
      controller.typeCache.checkModelTypes.lookup checkModelType.key else none) with
  | some ctype =>
    split at hlookup
    · rename_i henabled
      obtain ⟨cached, hcached, hkey, hremotes⟩ := h.cachedChecks _ _ hlookup
      refine ⟨controller.nextCtype, controller.typeCache, recorder.types, ctype, cached, ?_,
        ⟨h.ctypes_lt, h.etypes_lt, h.cachedChecks, h.cachedErrors⟩, ⟨rfl, rfl⟩, rfl, hcached,
        hkey, hremotes⟩
      rw [JitController.getOrLoadCtype, if_pos henabled, hlookup]
    · cases hlookup
  | none =>
    have hnew : controller.nextCtype ∉ recorder.types.checkModelTypes := fun hmem =>
      lt_irrefl _ (h.ctypes_lt _ hmem)
    refine ⟨controller.nextCtype + 1, if controller.cacheEnabled then
        { controller.typeCache with
          checkModelTypes := controller.typeCache.checkModelTypes.insert checkModelType.key
            controller.nextCtype }
      else controller.typeCache, { recorder.types with
        checkModelTypes := recorder.types.checkModelTypes.insert controller.nextCtype
          { checkModelType with ctype := controller.nextCtype } },
      controller.nextCtype, { checkModelType with ctype := controller.nextCtype }, ?_, ?_,
      ⟨rfl, rfl⟩, rfl, lookup_insert _, rfl, huses⟩
    · rw [JitController.getOrLoadCtype, hlookup]
      dsimp only [recorderClient]
      rw [LoadedTypes.loadLibrary_checkModelType hnew]
      rfl
    · refine ⟨fun id hid => ?_, h.etypes_lt, fun key ctype hkey => ?_, fun key etype hkey => ?_⟩
      · rcases (mem_insert _).mp hid with rfl | hid
        · exact Nat.lt_succ_self _
        · exact (h.ctypes_lt id hid).trans (Nat.lt_succ_self _)
      · have hold : ∀ ctype, controller.typeCache.checkModelTypes.lookup key = some ctype →
            ∃ cached, (recorder.types.checkModelTypes.insert controller.nextCtype
              { checkModelType with ctype := controller.nextCtype }).lookup ctype =
                some cached ∧ cached.key = key ∧ cached.UsesRemotes := by
          intro ctype hctype
          obtain ⟨cached, hcached, hrest⟩ := h.cachedChecks key ctype hctype
          refine ⟨cached, ?_, hrest⟩
          rw [lookup_insert_ne, hcached]
          rintro rfl
          exact hnew (lookup_isSome.mp (by rw [hcached, Option.isSome_some]))
        dsimp only at hkey
        split at hkey
        · by_cases hsame : key = checkModelType.key
          · subst hsame
            rw [lookup_insert] at hkey
            cases hkey
            exact ⟨_, lookup_insert _, rfl, huses⟩
          · rw [lookup_insert_ne hsame] at hkey
            exact hold ctype hkey
        · exact hold ctype hkey
      · refine h.cachedErrors key etype ?_
        dsimp only at hkey
        split at hkey
        · exact hkey
        · exact hkey

theorem Consistent.getOrLoadEtype (h : controller.Consistent recorder.types)
    {errorModelType : ErrorModelType K} (huses : errorModelType.UsesRemotes) :
    ∃ nextEtype typeCache loaded etype cached,
      controller.getOrLoadEtype (recorderClient config answers) recorder errorModelType =
        some ({ controller with nextEtype := nextEtype, typeCache := typeCache },
          { recorder with types := loaded }, etype) ∧
      Consistent { controller with nextEtype := nextEtype, typeCache := typeCache } loaded ∧
      recorder.types.SameGadgets loaded ∧
      ExtendsTypes controller.nextEtype nextEtype recorder.types.errorModelTypes
        loaded.errorModelTypes ∧
      loaded.errorModelTypes.lookup etype = some cached ∧ cached.key = errorModelType.key ∧
      cached.UsesRemotes := by
  cases hlookup : (if controller.cacheEnabled then
      controller.typeCache.errorModelTypes.lookup errorModelType.key else none) with
  | some etype =>
    split at hlookup
    · rename_i henabled
      obtain ⟨cached, hcached, hkey, hremotes⟩ := h.cachedErrors _ _ hlookup
      refine ⟨controller.nextEtype, controller.typeCache, recorder.types, etype, cached, ?_,
        ⟨h.ctypes_lt, h.etypes_lt, h.cachedChecks, h.cachedErrors⟩, ⟨rfl, rfl⟩, .refl, hcached,
        hkey, hremotes⟩
      rw [JitController.getOrLoadEtype, if_pos henabled, hlookup]
    · cases hlookup
  | none =>
    have hnew : controller.nextEtype ∉ recorder.types.errorModelTypes := fun hmem =>
      lt_irrefl _ (h.etypes_lt _ hmem)
    refine ⟨controller.nextEtype + 1, if controller.cacheEnabled then
        { controller.typeCache with
          errorModelTypes := controller.typeCache.errorModelTypes.insert errorModelType.key
            controller.nextEtype }
      else controller.typeCache, { recorder.types with
        errorModelTypes := recorder.types.errorModelTypes.insert controller.nextEtype
          { errorModelType with etype := controller.nextEtype } },
      controller.nextEtype, { errorModelType with etype := controller.nextEtype }, ?_, ?_,
      ⟨rfl, rfl⟩, ⟨Nat.le_succ _, fun id hid => lookup_insert_ne hid.ne⟩,
      lookup_insert _, rfl, huses⟩
    · rw [JitController.getOrLoadEtype, hlookup]
      dsimp only [recorderClient]
      rw [LoadedTypes.loadLibrary_errorModelType hnew]
      rfl
    · refine ⟨h.ctypes_lt, fun id hid => ?_, fun key ctype hkey => ?_, fun key etype hkey => ?_⟩
      · rcases (mem_insert _).mp hid with rfl | hid
        · exact Nat.lt_succ_self _
        · exact (h.etypes_lt id hid).trans (Nat.lt_succ_self _)
      · refine h.cachedChecks key ctype ?_
        dsimp only at hkey
        split at hkey
        · exact hkey
        · exact hkey
      · have hold : ∀ etype, controller.typeCache.errorModelTypes.lookup key = some etype →
            ∃ cached, (recorder.types.errorModelTypes.insert controller.nextEtype
              { errorModelType with etype := controller.nextEtype }).lookup etype =
                some cached ∧ cached.key = key ∧ cached.UsesRemotes := by
          intro etype hetype
          obtain ⟨cached, hcached, hrest⟩ := h.cachedErrors key etype hetype
          refine ⟨cached, ?_, hrest⟩
          rw [lookup_insert_ne, hcached]
          rintro rfl
          exact hnew (lookup_isSome.mp (by rw [hcached, Option.isSome_some]))
        dsimp only at hkey
        split at hkey
        · by_cases hsame : key = errorModelType.key
          · subst hsame
            rw [lookup_insert] at hkey
            cases hkey
            exact ⟨_, lookup_insert _, rfl, huses⟩
          · rw [lookup_insert_ne hsame] at hkey
            exact hold etype hkey
        · exact hold etype hkey

end Load

end JitController

end QdkEc
