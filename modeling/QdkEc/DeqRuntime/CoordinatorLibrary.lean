import QdkEc.DeqRuntime.Validation
import QdkEc.DeqRuntime.LossHandler

/-!
# Libraries of coordinators

This module models how a coordinator loads a library: the types are inserted one after
another, and the first type whose identifier is in use rejects the rest.  A rejected
library leaves the types before the rejected one behind.
-/

namespace QdkEc

open Option

/-- The type of a port, with the number of its observables. -/
structure PortType where
  ptype : ℕ
  observables : ℕ
deriving DecidableEq

/-- A gadget type of a library. -/
structure CoordinatorGadgetType where
  gtype : ℕ
  gadgetType : GadgetType
  readouts : List (List ℕ)
  isFreeHop : Option Bool
  hasLossModel : Bool

/-- A library. -/
structure Library (K : Type) where
  portTypes : List PortType
  gadgetTypes : List CoordinatorGadgetType
  checkModelTypes : List CheckModelType
  errorModelTypes : List (ErrorModelType K)

/-- The types that a coordinator has loaded. -/
structure LoadedTypes (K : Type) where
  portTypes : GidMap PortType
  gadgetTypes : GidMap CoordinatorGadgetType
  checkModelTypes : GidMap CheckModelType
  errorModelTypes : GidMap (ErrorModelType K)

/-- The errors of requests: those of the coordinator, and a reset in progress. -/
inductive Status
  | coordinator (error : CoordinatorError)
  | unavailable (message : String)
deriving DecidableEq

/-- A structured loss needs a decoder that supports it. -/
def LossHandler.validateCapability {W : Type} (handler : LossHandler W)
    (gadgetTypes : List CoordinatorGadgetType) (decoderSupportsLoss : Bool) :
    Except CoordinatorError Unit :=
  if handler.handsOffToDecoder && gadgetTypes.any CoordinatorGadgetType.hasLossModel &&
      !decoderSupportsLoss then
    .error (.failedPrecondition ("loss_strategy handoff requires a decoder with structured " ++
      "loss support for this library"))
  else .ok ()

section Load

variable {A : Type}

/-- Load types until the identifier of one is in use; that identifier is returned. -/
def loadTypes (idOf : A → ℕ) : GidMap A → List A → GidMap A × Option ℕ
  | types, [] => (types, none)
  | types, type :: rest =>
    if idOf type ∈ types then (types, some (idOf type))
    else loadTypes idOf (types.insert (idOf type) type) rest

variable {K : Type}

def LoadedTypes.load (types : LoadedTypes K) (library : Library K) :
    LoadedTypes K × Except CoordinatorError Unit :=
  let ports := loadTypes PortType.ptype types.portTypes library.portTypes
  let types := { types with portTypes := ports.1 }
  match ports.2 with
  | some ptype => (types, .error (.alreadyExists s!"ptype={ptype}"))
  | none =>
    let gadgets := loadTypes CoordinatorGadgetType.gtype types.gadgetTypes library.gadgetTypes
    let types := { types with gadgetTypes := gadgets.1 }
    match gadgets.2 with
    | some gtype => (types, .error (.alreadyExists s!"gtype={gtype}"))
    | none =>
      let checks := loadTypes CheckModelType.ctype types.checkModelTypes library.checkModelTypes
      let types := { types with checkModelTypes := checks.1 }
      match checks.2 with
      | some ctype => (types, .error (.alreadyExists s!"ctype={ctype}"))
      | none =>
        let errors := loadTypes ErrorModelType.etype types.errorModelTypes library.errorModelTypes
        let types := { types with errorModelTypes := errors.1 }
        match errors.2 with
        | some etype => (types, .error (.alreadyExists s!"etype={etype}"))
        | none => (types, .ok ())

end Load

/-- What the requests of a coordinator read of its configuration. -/
structure CoordinatorConfig (W : Type) where
  lossHandler : LossHandler W
  decoderSupportsLoss : Bool
  lossImputationSeed : Option ℕ

/-- A coordinator that is not being reset admits a request. -/
def tryGuard (accepting : Bool) : Except Status Unit :=
  if accepting then .ok () else .error (.unavailable "coordinator reset in progress")

def LoadedTypes.loadLibrary {K W : Type} (types : LoadedTypes K) (config : CoordinatorConfig W)
    (accepting : Bool) (library : Library K) :
    LoadedTypes K × Except Status Unit :=
  match tryGuard accepting with
  | .error status => (types, .error status)
  | .ok () =>
    match config.lossHandler.validateCapability library.gadgetTypes
        config.decoderSupportsLoss with
    | .error error => (types, .error (.coordinator error))
    | .ok () =>
      let loaded := types.load library
      (loaded.1, loaded.2.mapError .coordinator)

/-- The name of a type. -/
inductive TypeName
  | port (ptype : ℕ)
  | gadget (gtype : ℕ)
  | checkModel (ctype : ℕ)
  | errorModel (etype : ℕ)
deriving DecidableEq

section Names

variable {K : Type}

/-- The names of the types of a library, in the order in which they are loaded. -/
def Library.names (library : Library K) : List TypeName :=
  library.portTypes.map (.port ∘ PortType.ptype) ++
    (library.gadgetTypes.map (.gadget ∘ CoordinatorGadgetType.gtype) ++
      (library.checkModelTypes.map (.checkModel ∘ CheckModelType.ctype) ++
        library.errorModelTypes.map (.errorModel ∘ ErrorModelType.etype)))

def LoadedTypes.InUse (types : LoadedTypes K) : TypeName → Prop
  | .port ptype => ptype ∈ types.portTypes
  | .gadget gtype => gtype ∈ types.gadgetTypes
  | .checkModel ctype => ctype ∈ types.checkModelTypes
  | .errorModel etype => etype ∈ types.errorModelTypes

/-- Identifiers are distinct, and none is in use. -/
def AreNew {A : Type} (ids : List ℕ) (types : GidMap A) : Prop :=
  ids.Nodup ∧ ∀ id ∈ ids, id ∉ types

/-- All types of a library are new. -/
structure Library.IsNew (library : Library K) (types : LoadedTypes K) : Prop where
  portTypes : AreNew (library.portTypes.map PortType.ptype) types.portTypes
  gadgetTypes : AreNew (library.gadgetTypes.map CoordinatorGadgetType.gtype) types.gadgetTypes
  checkModelTypes : AreNew (library.checkModelTypes.map CheckModelType.ctype)
    types.checkModelTypes
  errorModelTypes : AreNew (library.errorModelTypes.map ErrorModelType.etype)
    types.errorModelTypes

def Library.FirstInUse (library : Library K) (types : LoadedTypes K) : Prop :=
  ∀ name ∈ library.names.head?, types.InUse name

end Names

section LoadTypes

variable {A : Type} (idOf : A → ℕ)

theorem mem_loadTypes {types : GidMap A} {id : ℕ} (hid : id ∈ types) (library : List A) :
    id ∈ (loadTypes idOf types library).1 := by
  induction library generalizing types with
  | nil => exact hid
  | cons type rest ih =>
    rw [loadTypes]
    split
    · exact hid
    · exact ih (AList.mem_insert _ |>.mpr (.inr hid))

theorem loadTypes_eq_none_iff (types : GidMap A) (library : List A) :
    (loadTypes idOf types library).2 = none ↔ AreNew (library.map idOf) types := by
  induction library generalizing types with
  | nil => simp [loadTypes, AreNew]
  | cons type rest ih =>
    rw [loadTypes, AreNew, List.map_cons, List.nodup_cons, List.forall_mem_cons]
    split
    · rename_i hused
      exact iff_of_false (some_ne_none _) fun h => h.2.1 hused
    · rename_i hfresh
      rw [ih]
      constructor
      · rintro ⟨hnodup, hnew⟩
        refine ⟨⟨fun hin => ?_, hnodup⟩, hfresh, fun id hid hused => ?_⟩
        · exact hnew _ hin (AList.mem_insert _ |>.mpr (.inl rfl))
        · exact hnew id hid (AList.mem_insert _ |>.mpr (.inr hused))
      · rintro ⟨⟨hfirst, hnodup⟩, -, hnew⟩
        refine ⟨hnodup, fun id hid hused => ?_⟩
        rcases (AList.mem_insert _).mp hused with rfl | hused
        · exact hfirst hid
        · exact hnew id hid hused

theorem loadTypes_cases (types : GidMap A) (library : List A) :
    ((library.map idOf).head? = none ∧ loadTypes idOf types library = (types, none)) ∨
      (∃ id, (library.map idOf).head? = some id ∧ id ∈ types ∧
        loadTypes idOf types library = (types, some id)) ∨
      ∃ id, (library.map idOf).head? = some id ∧ id ∉ types ∧
        (loadTypes idOf types library).1 ≠ types := by
  cases library with
  | nil => exact .inl ⟨rfl, rfl⟩
  | cons type rest =>
    by_cases hused : idOf type ∈ types
    · exact .inr (.inl ⟨_, rfl, hused, if_pos hused⟩)
    · refine .inr (.inr ⟨_, rfl, hused, fun hsame => hused ?_⟩)
      rw [← hsame, loadTypes, if_neg hused]
      exact mem_loadTypes idOf (AList.mem_insert _ |>.mpr (.inl rfl)) rest

end LoadTypes

section Rejected

variable {K : Type}

theorem LoadedTypes.load_eq_ok_iff (types : LoadedTypes K) (library : Library K) :
    (types.load library).2 = .ok () ↔ library.IsNew types := by
  have hports := loadTypes_eq_none_iff PortType.ptype types.portTypes library.portTypes
  have hgadgets := loadTypes_eq_none_iff CoordinatorGadgetType.gtype types.gadgetTypes
    library.gadgetTypes
  have hchecks := loadTypes_eq_none_iff CheckModelType.ctype types.checkModelTypes
    library.checkModelTypes
  have herrors := loadTypes_eq_none_iff ErrorModelType.etype types.errorModelTypes
    library.errorModelTypes
  rw [load]
  dsimp only
  split
  · rename_i hport
    exact iff_of_false (by simp) fun hnew => by
      rw [hports.mpr hnew.portTypes] at hport
      cases hport
  rename_i hport
  split
  · rename_i hgadget
    exact iff_of_false (by simp) fun hnew => by
      rw [hgadgets.mpr hnew.gadgetTypes] at hgadget
      cases hgadget
  rename_i hgadget
  split
  · rename_i hcheck
    exact iff_of_false (by simp) fun hnew => by
      rw [hchecks.mpr hnew.checkModelTypes] at hcheck
      cases hcheck
  rename_i hcheck
  split
  · rename_i herror
    exact iff_of_false (by simp) fun hnew => by
      rw [herrors.mpr hnew.errorModelTypes] at herror
      cases herror
  · rename_i herror
    exact iff_of_true rfl
      ⟨hports.mp hport, hgadgets.mp hgadget, hchecks.mp hcheck, herrors.mp herror⟩

theorem Library.head?_names (library : Library K) : library.names.head? =
      ((library.portTypes.map PortType.ptype).head?.map .port).or
        (((library.gadgetTypes.map CoordinatorGadgetType.gtype).head?.map .gadget).or
          (((library.checkModelTypes.map CheckModelType.ctype).head?.map .checkModel).or
            ((library.errorModelTypes.map ErrorModelType.etype).head?.map .errorModel))) := by
  simp only [names, List.head?_append, List.head?_map, map_map]

theorem LoadedTypes.portTypes_load (types : LoadedTypes K) (library : Library K) :
    (types.load library).1.portTypes =
      (loadTypes PortType.ptype types.portTypes library.portTypes).1 := by
  rw [load]
  dsimp only
  split
  · rfl
  split
  · rfl
  split
  · rfl
  split <;> rfl

variable {types : LoadedTypes K} {library : Library K}

section

variable (hports : loadTypes PortType.ptype types.portTypes library.portTypes = (types.portTypes, none))

include hports

theorem LoadedTypes.gadgetTypes_load : (types.load library).1.gadgetTypes =
      (loadTypes CoordinatorGadgetType.gtype types.gadgetTypes library.gadgetTypes).1 := by
  rw [load, hports]
  dsimp only
  split
  · rfl
  split
  · rfl
  split <;> rfl

theorem LoadedTypes.checkModelTypes_load
    (hgadgets : loadTypes CoordinatorGadgetType.gtype types.gadgetTypes library.gadgetTypes =
      (types.gadgetTypes, none)) : (types.load library).1.checkModelTypes =
      (loadTypes CheckModelType.ctype types.checkModelTypes library.checkModelTypes).1 := by
  rw [load, hports, hgadgets]
  dsimp only
  split
  · rfl
  split <;> rfl

theorem LoadedTypes.errorModelTypes_load
    (hgadgets : loadTypes CoordinatorGadgetType.gtype types.gadgetTypes library.gadgetTypes =
      (types.gadgetTypes, none))
    (hchecks : loadTypes CheckModelType.ctype types.checkModelTypes library.checkModelTypes =
      (types.checkModelTypes, none)) : (types.load library).1.errorModelTypes =
      (loadTypes ErrorModelType.etype types.errorModelTypes library.errorModelTypes).1 := by
  simp only [load, hports, hgadgets, hchecks]
  split <;> rfl

end

theorem LoadedTypes.load_eq_self_iff (types : LoadedTypes K) (library : Library K) :
    (types.load library).1 = types ↔ library.FirstInUse types := by
  rw [Library.FirstInUse, library.head?_names]
  rcases loadTypes_cases PortType.ptype types.portTypes library.portTypes with
    ⟨hhead, hports⟩ | ⟨id, hhead, hused, hports⟩ | ⟨id, hhead, hfresh, hports⟩
  · rw [hhead, map_none, none_or]
    rcases loadTypes_cases CoordinatorGadgetType.gtype types.gadgetTypes library.gadgetTypes with
      ⟨hhead, hgadgets⟩ | ⟨id, hhead, hused, hgadgets⟩ | ⟨id, hhead, hfresh, hgadgets⟩
    · rw [hhead, map_none, none_or]
      rcases loadTypes_cases CheckModelType.ctype types.checkModelTypes
          library.checkModelTypes with
        ⟨hhead, hchecks⟩ | ⟨id, hhead, hused, hchecks⟩ | ⟨id, hhead, hfresh, hchecks⟩
      · rw [hhead, map_none, none_or]
        rcases loadTypes_cases ErrorModelType.etype types.errorModelTypes
            library.errorModelTypes with
          ⟨hhead, herrors⟩ | ⟨id, hhead, hused, herrors⟩ | ⟨id, hhead, hfresh, herrors⟩
        · rw [hhead]
          exact iff_of_true (by simp only [load, hports, hgadgets, hchecks, herrors]) nofun
        · rw [hhead]
          refine iff_of_true ?_ fun name hname => some_inj.mp hname ▸ hused
          simp only [load, hports, hgadgets, hchecks, herrors]
        · rw [hhead]
          exact iff_of_false (fun hsame => herrors ((errorModelTypes_load hports hgadgets
            hchecks).symm.trans (congrArg errorModelTypes hsame))) fun h => hfresh (h _ rfl)
      · rw [hhead]
        refine iff_of_true ?_ fun name hname => some_inj.mp hname ▸ hused
        simp only [load, hports, hgadgets, hchecks]
      · rw [hhead]
        exact iff_of_false (fun hsame => hchecks ((checkModelTypes_load hports hgadgets).symm.trans
          (congrArg checkModelTypes hsame))) fun h => hfresh (h _ rfl)
    · rw [hhead]
      refine iff_of_true ?_ fun name hname => some_inj.mp hname ▸ hused
      simp only [load, hports, hgadgets]
    · rw [hhead]
      exact iff_of_false (fun hsame => hgadgets ((gadgetTypes_load hports).symm.trans
        (congrArg gadgetTypes hsame))) fun h => hfresh (h _ rfl)
  · rw [hhead]
    refine iff_of_true ?_ fun name hname => some_inj.mp hname ▸ hused
    simp only [load, hports]
  · rw [hhead]
    exact iff_of_false (fun hsame => hports ((portTypes_load types library).symm.trans
      (congrArg portTypes hsame))) fun h => hfresh (h _ rfl)

end Rejected

end QdkEc
