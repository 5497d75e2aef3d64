import QdkEc.DeqRuntime.DecodeRequests
import QdkEc.DeqRuntime.RequestAtomicity
import QdkEc.Lib.OptionTraversal

/-!
# Which requests to a controller leave no trace

This module proves when a request to load a library or to decode outcomes that is
rejected leaves no trace.  Both coordinators check a request to decode before they store
anything.  The controller loads a library into its compiler before it looks for a
coordinator, and it forgets a gadget before the coordinator checks its outcomes.
-/

namespace QdkEc

open Option List JitGadgetType

/-- A request leaves no trace when it is rejected. -/
def RejectedUnchanged {S : Type} (before after : S) (result : Except Status Unit) : Prop :=
  ∀ status, result = .error status → after = before

theorem rejectedUnchanged_ok {S : Type} (before after : S) :
    RejectedUnchanged before after (.ok ()) :=
  nofun

theorem rejectedUnchanged_error_iff {S : Type} {before after : S} {status : Status} :
    RejectedUnchanged before after (.error status) ↔ after = before :=
  ⟨fun h => h status rfl, fun h _ _ => h⟩

section Coordinators

variable {K W : Type} [Zero K] [One K] [LinearOrder K] [ToString K] {config : CoordinatorConfig W}
  {random : LossRandom} {accepting : Bool} {outcomes : Outcomes K} {result : Except Status Unit}

theorem WindowCoordinator.decode_cases {coordinator after : WindowCoordinator K}
    (hdecode : coordinator.decode config random accepting outcomes = some (after, result)) :
    RejectedUnchanged coordinator after result ∧ (result = .ok () ↔ accepting = true ∧
        ∃ accepted, coordinator.acceptDecode outcomes = .ok accepted) := by
  rw [decode] at hdecode
  cases accepting with
  | false =>
    cases hdecode
    exact ⟨fun _ _ => rfl, iff_of_false nofun nofun⟩
  | true =>
    cases haccept : coordinator.acceptDecode outcomes with
    | error status =>
      rw [haccept] at hdecode
      cases hdecode
      exact ⟨fun _ _ => rfl, iff_of_false nofun fun h => nomatch h.2.choose_spec⟩
    | ok accepted =>
      obtain ⟨gadget, modifiers, gadgetType, data⟩ := accepted
      rw [haccept] at hdecode
      obtain ⟨stored, -, hdecode⟩ := bind_eq_some_iff.mp hdecode
      obtain ⟨tracker, -, hdecode⟩ := bind_eq_some_iff.mp hdecode
      cases hdecode
      exact ⟨rejectedUnchanged_ok _ _, iff_of_true rfl ⟨rfl, _, rfl⟩⟩

theorem MonolithicServer.decode_cases {server after : MonolithicServer K}
    (hdecode : server.decode config random accepting outcomes = some (after, result)) :
    RejectedUnchanged server after result ∧ (result = .ok () ↔ accepting = true ∧
        ∃ accepted, server.acceptDecode outcomes = .ok accepted) := by
  rw [decode] at hdecode
  cases accepting with
  | false =>
    cases hdecode
    exact ⟨fun _ _ => rfl, iff_of_false nofun nofun⟩
  | true =>
    cases haccept : server.acceptDecode outcomes with
    | error status =>
      rw [haccept] at hdecode
      cases hdecode
      exact ⟨fun _ _ => rfl, iff_of_false nofun fun h => nomatch h.2.choose_spec⟩
    | ok accepted =>
      obtain ⟨gadget, modifiers, gadgetType, data⟩ := accepted
      rw [haccept] at hdecode
      obtain ⟨stored, -, hdecode⟩ := bind_eq_some_iff.mp hdecode
      obtain ⟨unionIndex, -, hdecode⟩ := bind_eq_some_iff.mp hdecode
      obtain ⟨counted, -, hdecode⟩ := bind_eq_some_iff.mp hdecode
      obtain ⟨_, -, hdecode⟩ := bind_eq_some_iff.mp hdecode
      obtain ⟨tracker, -, hdecode⟩ := bind_eq_some_iff.mp hdecode
      cases hdecode
      exact ⟨rejectedUnchanged_ok _ _, iff_of_true rfl ⟨rfl, _, rfl⟩⟩

end Coordinators

section Compiler

variable {K : Type}

/-- The number of types of ports and gadgets. -/
def JitTypes.size (types : JitTypes K) : ℕ :=
  types.portTypes.keys.length + types.gadgetTypes.keys.length

theorem length_keys_insert {A : Type} {map : GidMap A} {id : ℕ} (hnew : id ∉ map) (value : A) :
    (map.insert id value).keys.length = map.keys.length + 1 := by
  rw [AList.keys_insert, erase_of_not_mem hnew, length_cons]

theorem JitTypes.size_loadLibrary {types loaded : JitTypes K} {library : JitLibrary K}
    (hload : types.loadLibrary library = some loaded) :
    loaded.size = types.size + library.portTypes.length + library.gadgetTypes.length := by
  obtain ⟨ports, hports, hgadgets⟩ := bind_eq_some_iff.mp hload
  have hportsSize : ports.size = types.size + library.portTypes.length := by
    refine foldlM_induction (fun done loaded => loaded.size = types.size + done.length) rfl ?_
      hports
    intro done portType before after hsize hstep
    obtain ⟨_, hnew, hstep⟩ := bind_eq_some_iff.mp hstep
    cases hstep
    rw [length_append, length_singleton, ← Nat.add_assoc, ← hsize, size, size,
      length_keys_insert ((guard_eq_some' _).mp hnew), Nat.add_right_comm]
  refine (foldlM_induction (fun done loaded => loaded.size = ports.size + done.length) rfl ?_
    hgadgets).trans (by rw [hportsSize])
  intro done gadgetType before after hsize hstep
  obtain ⟨_, hnew, hstep⟩ := bind_eq_some_iff.mp hstep
  obtain ⟨maps, -, hstep⟩ := bind_eq_some_iff.mp hstep
  cases hstep
  rw [length_append, length_singleton, ← Nat.add_assoc, ← hsize, size, size,
    length_keys_insert ((guard_eq_some' _).mp hnew), Nat.add_assoc]

end Compiler

section Libraries

variable {K W S : Type} {config : CoordinatorConfig W} {accepting : Bool}
  {controller after : JitController K S} {library : JitLibrary K} {result : Except Status Unit}

theorem JitController.registerTerminalTypes_spec {gadgetTypes : List CoordinatorGadgetType}
    {registered : JitController K S × List (ErrorModelType K)}
    (hregister : controller.registerTerminalTypes gadgetTypes = some registered) :
    registered.1.compiler = controller.compiler ∧ registered.2.map ErrorModelType.etype =
        List.range' controller.nextEtype gadgetTypes.length := by
  have hspec := foldlM_induction (fun done (registered : JitController K S × _) =>
    registered.1.compiler = controller.compiler ∧
      registered.1.nextEtype = controller.nextEtype + done.length ∧
        registered.2.map ErrorModelType.etype = List.range' controller.nextEtype done.length)
    ⟨rfl, rfl, rfl⟩ ?_ hregister
  · exact ⟨hspec.1, hspec.2.2⟩
  intro done gadgetType before after hbefore hstep
  obtain ⟨terminalType, -, hstep⟩ := bind_eq_some_iff.mp hstep
  cases hstep
  obtain ⟨hcompiler, hnext, hetypes⟩ := hbefore
  refine ⟨hcompiler, ?_, ?_⟩
  · rw [length_append, length_singleton, ← Nat.add_assoc, ← hnext]
  · rw [map_append, hetypes, length_append, length_singleton, range'_concat, Nat.one_mul, ← hnext]
    rfl

/-- A coordinator with these types accepts what is sent of a library. -/
structure LoadedTypes.AcceptsSent (types : LoadedTypes K) (config : CoordinatorConfig W)
    (accepting : Bool) (nextEtype : ℕ) (library : JitLibrary K) :
    Prop where
  accepting : accepting = true
  capability : config.lossHandler.validateCapability (library.gadgetTypes.map JitGadgetType.base)
    config.decoderSupportsLoss = .ok ()
  portTypes : AreNew (library.portTypes.map fun portType => portType.base.ptype) types.portTypes
  gadgetTypes : AreNew (library.gadgetTypes.map fun gadgetType => gadgetType.base.gtype)
    types.gadgetTypes
  etypes : AreNew (List.range' nextEtype library.gadgetTypes.length) types.errorModelTypes

theorem LoadedTypes.loadLibrary_eq_ok_iff {types : LoadedTypes K} {nextEtype : ℕ}
    {errorModelTypes : List (ErrorModelType K)}
    (hetypes : errorModelTypes.map ErrorModelType.etype =
      List.range' nextEtype library.gadgetTypes.length) :
    (types.loadLibrary config accepting ⟨library.portTypes.map JitPortType.base,
        library.gadgetTypes.map base, [], errorModelTypes⟩).2 = .ok () ↔
      types.AcceptsSent config accepting nextEtype library := by
  have hnew : Library.IsNew ⟨library.portTypes.map JitPortType.base,
      library.gadgetTypes.map base, [], errorModelTypes⟩ types ↔
      AreNew (library.portTypes.map fun portType => portType.base.ptype) types.portTypes ∧
        AreNew (library.gadgetTypes.map fun gadgetType => gadgetType.base.gtype)
          types.gadgetTypes ∧
        AreNew (List.range' nextEtype library.gadgetTypes.length) types.errorModelTypes := by
    constructor
    · rintro ⟨hports, hgadgets, -, herrors⟩
      rw [List.map_map] at hports hgadgets
      rw [hetypes] at herrors
      exact ⟨hports, hgadgets, herrors⟩
    · rintro ⟨hports, hgadgets, herrors⟩
      refine ⟨?_, ?_, ⟨List.nodup_nil, nofun⟩, ?_⟩
      · rwa [List.map_map]
      · rwa [List.map_map]
      · rwa [hetypes]
  rcases types.loadLibrary_cases config accepting ⟨library.portTypes.map JitPortType.base,
      library.gadgetTypes.map base, [], errorModelTypes⟩ with
    ⟨-, ⟨status, hstatus⟩, hrejected⟩ | ⟨hload, haccepting, hcapability⟩
  · rw [hstatus]
    exact iff_of_false nofun fun h => hrejected ⟨h.accepting, h.capability⟩
  · have hok : ((types.load ⟨library.portTypes.map JitPortType.base,
        library.gadgetTypes.map base, [], errorModelTypes⟩).2.mapError
          Status.coordinator) = .ok () ↔ _ :=
      (Iff.trans (by cases (types.load _).2 <;> simp [Except.mapError])
        (types.load_eq_ok_iff _)).trans hnew
    rw [hload, hok]
    exact ⟨fun h => ⟨haccepting, hcapability, h.1, h.2.1, h.2.2⟩,
      fun h => ⟨h.portTypes, h.gadgetTypes, h.etypes⟩⟩

/-- The condition under which a controller loads a library: it has no types, or a coordinator is
connected and accepts them. -/
def JitController.LoadCondition (controller : JitController K S) (typesOf : S → LoadedTypes K)
    (config : CoordinatorConfig W) (accepting : Bool) (library : JitLibrary K) :
    Prop :=
  (library.portTypes = [] ∧ library.gadgetTypes = []) ∨
    ∃ state, controller.coordinator = some state ∧
      (typesOf state).AcceptsSent config accepting controller.nextEtype library

theorem JitController.loadLibrary_rejectedUnchanged_iff (client : CoordinatorClient K S)
    (typesOf : S → LoadedTypes K) (hclient : ∀ state library, (client.loadLibrary state library).2 =
        ((typesOf state).loadLibrary config accepting library).2)
    (hload : controller.loadLibrary client library = some (after, result)) :
    RejectedUnchanged controller after result ↔
      controller.LoadCondition typesOf config accepting library := by
  obtain ⟨compiled, hcompiled, hload⟩ := bind_eq_some_iff.mp hload
  obtain ⟨types, htypes, hcompiled⟩ := bind_eq_some_iff.mp hcompiled
  cases hcompiled
  have hsize := JitTypes.size_loadLibrary htypes
  split at hload
  · rename_i hempty
    cases hload
    rw [Bool.and_eq_true, List.isEmpty_iff, List.isEmpty_iff] at hempty
    exact iff_of_true (rejectedUnchanged_ok _ _) (Or.inl hempty)
  · rename_i hempty
    rw [Bool.and_eq_true, List.isEmpty_iff, List.isEmpty_iff] at hempty
    have htrace : ∀ after : JitController K S, after.compiler.types = types →
        after ≠ controller := by
      rintro after hafter rfl
      rw [hafter] at hsize
      refine hempty ⟨eq_nil_of_length_eq_zero ?_, eq_nil_of_length_eq_zero ?_⟩
      · omega
      · omega
    rw [LoadCondition, or_iff_right hempty]
    cases hcoordinator : controller.coordinator with
    | none =>
      rw [hcoordinator] at hload
      cases hload
      rw [rejectedUnchanged_error_iff]
      exact iff_of_false (htrace _ rfl) fun ⟨_, hstate, _⟩ => nomatch hstate
    | some state =>
      rw [hcoordinator] at hload
      obtain ⟨registered, hregistered, hload⟩ := bind_eq_some_iff.mp hload
      cases hload
      obtain ⟨hcompiler, hetypes⟩ := registerTerminalTypes_spec hregistered
      rw [length_map] at hetypes
      have hok : (client.loadLibrary state ⟨library.portTypes.map JitPortType.base,
          library.gadgetTypes.map base, [], registered.2⟩).2 = .ok () ↔
          (typesOf state).AcceptsSent config accepting controller.nextEtype library := by
        rw [hclient]
        exact LoadedTypes.loadLibrary_eq_ok_iff hetypes
      have hcondition : (∃ connected, some state = some connected ∧
          (typesOf connected).AcceptsSent config accepting controller.nextEtype library) ↔
          (typesOf state).AcceptsSent config accepting controller.nextEtype library :=
        ⟨fun ⟨_, hstate, haccepts⟩ => some_inj.mp hstate ▸ haccepts,
          fun haccepts => ⟨state, rfl, haccepts⟩⟩
      rw [hcondition, ← hok]
      cases (client.loadLibrary state ⟨library.portTypes.map JitPortType.base,
          library.gadgetTypes.map base, [], registered.2⟩).2 with
      | error status =>
        rw [rejectedUnchanged_error_iff]
        exact iff_of_false (htrace _ (by rw [hcompiler])) nofun
      | ok _ => exact iff_of_true (rejectedUnchanged_ok _ _) rfl

end Libraries

section Decode

variable {K S : Type} {controller after : JitController K S} {outcomes : Outcomes K}
  {result : Except Status Unit}

/-- The condition under which a request to decode leaves no trace when it is rejected: its gadget
does not wait for outcomes, or a coordinator is connected and takes the request. -/
def JitController.DecodeCondition (controller : JitController K S) (Takes : S → Prop)
    (outcomes : Outcomes K) :
    Prop :=
  outcomes.gid ∈ controller.undecodedGids →
    ∃ state, controller.coordinator = some state ∧ Takes state

theorem JitController.decodeSingle_rejectedUnchanged_iff
    {decode : S → Outcomes K → Option (S × Except Status Unit)} {Takes : S → Prop}
    (htakes : ∀ state answered, decode state outcomes = some answered →
      (answered.2 = .ok () ↔ Takes state))
    (hdecode : controller.decodeSingle decode outcomes = some (after, result)) :
    RejectedUnchanged controller after result ↔ controller.DecodeCondition Takes outcomes := by
  rw [decodeSingle] at hdecode
  split at hdecode
  · rename_i hunknown
    cases hdecode
    exact iff_of_true (fun _ _ => rfl) fun hmem => absurd hmem hunknown
  rename_i hknown
  have hmem := not_not.mp hknown
  have htrace : ∀ after : JitController K S,
      after.undecodedGids = controller.undecodedGids.erase outcomes.gid → after ≠ controller := by
    rintro after hafter rfl
    rw [hafter] at hmem
    exact Finset.notMem_erase _ _ hmem
  rw [DecodeCondition, forall_prop_of_true hmem]
  cases hcoordinator : controller.coordinator with
  | none =>
    rw [hcoordinator] at hdecode
    cases hdecode
    rw [rejectedUnchanged_error_iff]
    exact iff_of_false (htrace _ rfl) fun ⟨_, hstate, _⟩ => nomatch hstate
  | some state =>
    rw [hcoordinator] at hdecode
    obtain ⟨answered, hanswered, hdecode⟩ := bind_eq_some_iff.mp hdecode
    cases hdecode
    have hcondition : (∃ connected, some state = some connected ∧ Takes connected) ↔
        Takes state :=
      ⟨fun ⟨_, hstate, htaken⟩ => some_inj.mp hstate ▸ htaken,
        fun htaken => ⟨state, rfl, htaken⟩⟩
    rw [hcondition, ← htakes state answered hanswered]
    cases answered.2 with
    | error status =>
      rw [rejectedUnchanged_error_iff]
      exact iff_of_false (htrace _ rfl) nofun
    | ok _ => exact iff_of_true (rejectedUnchanged_ok _ _) rfl

end Decode

section All

variable {K W : Type} [Zero K] [One K] [LinearOrder K] [ToString K]

/-- Which requests leave no trace when they are rejected: a controller that is connected to one
of the coordinators loads a library without a trace exactly when the library is empty or accepted,
and decodes outcomes without a trace exactly when the gadget does not wait for outcomes or the
request is taken; a coordinator rejects every request to decode without a trace. -/
theorem requests_rejectedUnchanged_iff (config : CoordinatorConfig W) (random : LossRandom)
    (accepting : Bool) (resetDecoders : Except Status Unit) :
    (∀ (controller after : JitController K (WindowCoordinator K)) library result,
      controller.loadLibrary (WindowCoordinator.client config accepting resetDecoders) library =
          some (after, result) → (RejectedUnchanged controller after result ↔
          controller.LoadCondition WindowCoordinator.types config accepting library)) ∧
    (∀ (controller after : JitController K (MonolithicServer K)) library result,
      controller.loadLibrary (MonolithicServer.client config accepting resetDecoders) library =
          some (after, result) → (RejectedUnchanged controller after result ↔
          controller.LoadCondition MonolithicServer.types config accepting library)) ∧
    (∀ (controller after : JitController K (WindowCoordinator K)) outcomes result,
      controller.decodeSingle (fun coordinator => coordinator.decode config random accepting)
          outcomes = some (after, result) → (RejectedUnchanged controller after result ↔
          controller.DecodeCondition (fun coordinator => accepting = true ∧
            ∃ accepted, coordinator.acceptDecode outcomes = .ok accepted) outcomes)) ∧
    (∀ (controller after : JitController K (MonolithicServer K)) outcomes result,
      controller.decodeSingle (fun server => server.decode config random accepting)
          outcomes = some (after, result) → (RejectedUnchanged controller after result ↔
          controller.DecodeCondition (fun server => accepting = true ∧
            ∃ accepted, server.acceptDecode outcomes = .ok accepted) outcomes)) ∧
    (∀ (coordinator after : WindowCoordinator K) outcomes result,
      coordinator.decode config random accepting outcomes = some (after, result) →
        RejectedUnchanged coordinator after result) ∧
    ∀ (server after : MonolithicServer K) outcomes result,
      server.decode config random accepting outcomes = some (after, result) →
        RejectedUnchanged server after result := by
  refine ⟨fun _ _ _ _ hload => ?_, fun _ _ _ _ hload => ?_, fun _ _ _ _ hdecode => ?_,
    fun _ _ _ _ hdecode => ?_, fun _ _ _ _ hdecode => (WindowCoordinator.decode_cases hdecode).1,
    fun _ _ _ _ hdecode => (MonolithicServer.decode_cases hdecode).1⟩
  · exact JitController.loadLibrary_rejectedUnchanged_iff _ _ (fun _ _ => rfl) hload
  · exact JitController.loadLibrary_rejectedUnchanged_iff _ _ (fun _ _ => rfl) hload
  · exact JitController.decodeSingle_rejectedUnchanged_iff
      (fun _ _ htaken => (WindowCoordinator.decode_cases htaken).2) hdecode
  · exact JitController.decodeSingle_rejectedUnchanged_iff
      (fun _ _ htaken => (MonolithicServer.decode_cases htaken).2) hdecode

end All

/-- A library with a gadget type without ports, measurements, checks and errors. -/
def libraryOfPoint : JitLibrary ℚ :=
  ⟨[], [⟨⟨1, pointType, [], none, false⟩, [], [], []⟩]⟩

/-- A window coordinator that accepts requests. -/
def acceptingClient : CoordinatorClient ℚ (WindowCoordinator ℚ) :=
  WindowCoordinator.client ignoringLosses true (.ok ())

/-- A controller without a coordinator and without a library. -/
def unconnected : JitController ℚ (WindowCoordinator ℚ) :=
  .new ⟨[], []⟩ true

/-- The controller that has executed a gadget. -/
def executedPoint : Option (JitController ℚ (WindowCoordinator ℚ)) := do
  let started ← (JitController.new libraryOfPoint true).start acceptingClient (.new ℚ)
  (started.execute acceptingClient ⟨some ⟨1, 1, [], none⟩, none⟩ []).map Prod.fst

/-- Decode the gadget, with or without outcomes. -/
def decodePoint (controller : JitController ℚ (WindowCoordinator ℚ)) (outcomes : Option BitVector) :
    Option (JitController ℚ (WindowCoordinator ℚ) × Except Status Unit) :=
  controller.decodeSingle
    (fun coordinator => coordinator.decode ignoringLosses (fun _ _ _ => []) true)
    ⟨1, outcomes, [], none, none⟩

/-- A library that is rejected without a coordinator cannot be loaded when one is connected, and
outcomes that are rejected once cannot be decoded. -/
theorem requests_not_rejectedUnchanged :
    (unconnected.loadLibrary acceptingClient libraryOfPoint).map Prod.snd =
        some (.error (.coordinator (.failedPrecondition "coordinator not connected"))) ∧
      ({ unconnected with coordinator := some (WindowCoordinator.new ℚ) }.loadLibrary
        acceptingClient libraryOfPoint).map Prod.snd = some (.ok ()) ∧
      ((unconnected.loadLibrary acceptingClient libraryOfPoint).bind fun rejected =>
        ({ rejected.1 with coordinator := some (WindowCoordinator.new ℚ) }.loadLibrary
          acceptingClient libraryOfPoint).map Prod.snd) = none ∧
      (executedPoint.bind (decodePoint · none)).map Prod.snd =
        some (.error (.coordinator (.invalidArgument "missing outcomes"))) ∧
      (executedPoint.bind (decodePoint · (some ⟨0, []⟩))).map Prod.snd = some (.ok ()) ∧
      ((executedPoint.bind (decodePoint · none)).bind fun rejected =>
        (decodePoint rejected.1 (some ⟨0, []⟩)).map Prod.snd) =
          some (.error (.coordinator (.invalidArgument
            "decode called for unknown or already-decoded gid: 1"))) := by
  refine ⟨rfl, rfl, rfl, rfl, rfl, rfl⟩

/-- The library that is rejected without a coordinator leaves a trace. -/
theorem requests_rejectedUnchanged_iff_unconnected :
    ∃ after status, unconnected.loadLibrary acceptingClient libraryOfPoint =
        some (after, .error status) ∧ ¬RejectedUnchanged unconnected after (.error status) := by
  refine ⟨_, _, rfl, ?_⟩
  rw [(requests_rejectedUnchanged_iff (K := ℚ) ignoringLosses (fun _ _ _ => []) true
    (.ok ())).1 unconnected _ libraryOfPoint _ rfl]
  rintro (⟨-, hempty⟩ | ⟨state, hstate, -⟩)
  · cases hempty
  · cases hstate

end QdkEc
