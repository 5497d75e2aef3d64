import QdkEc.DeqRuntime.TypeCache

/-!
# Controllers with and without the cache of types

This module proves that a coordinator sees the same in runs with and without the cache of
types.  The two controllers go in lockstep: their compilers and tasks are the same, and
only the numbers of check and error model types differ.
-/

namespace QdkEc

open Option List

variable {etype etype' : ℕ}

section Etypes

variable {K : Type} {next next' later later' : ℕ} {types types' : GidMap (ErrorModelType K)}

/-- Two numbers that were given to the same error model type. -/
structure EtypesAlike (next next' : ℕ) (types types' : GidMap (ErrorModelType K))
    (etype etype' : ℕ) :
    Prop where
  lt : etype < next
  lt' : etype' < next'
  loaded : (types.lookup etype).map (fun type => (type.key, type.remoteCheckModels)) =
    (types'.lookup etype').map fun type => (type.key, type.remoteCheckModels)

theorem EtypesAlike.extend {extended extended' : GidMap (ErrorModelType K)}
    (h : EtypesAlike next next' types types' etype etype')
    (hextends : ExtendsTypes next later types extended)
    (hextends' : ExtendsTypes next' later' types' extended') :
    EtypesAlike later later' extended extended' etype etype' := by
  refine ⟨h.lt.trans_le hextends.le, h.lt'.trans_le hextends'.le, ?_⟩
  rw [hextends.lookup _ h.lt, hextends'.lookup _ h.lt', h.loaded]

end Etypes

section Terminals

variable {K : Type} [Zero K] [One K] [LinearOrder K] [ToString K]

variable {types types' : LoadedTypes K}

theorem LoadedTypes.effectiveErrorModel_alike {next next' etype etype' : ℕ}
    (h : EtypesAlike next next' types.errorModelTypes types'.errorModelTypes etype etype')
    (errorModel : ErrorModel K) :
    (types.effectiveErrorModel { errorModel with etype := etype }).toOption =
      (types'.effectiveErrorModel { errorModel with etype := etype' }).toOption := by
  have hloaded := h.loaded
  cases hlookup : types.errorModelTypes.lookup etype with
  | none =>
    rw [hlookup, map_none, eq_comm, map_eq_none_iff] at hloaded
    rw [effectiveErrorModel, effectiveErrorModel, checkErrorModel, checkErrorModel, hlookup,
      hloaded]
    rfl
  | some type =>
    rw [hlookup, map_some, eq_comm, map_eq_some_iff] at hloaded
    obtain ⟨type', hlookup', hsame⟩ := hloaded
    obtain ⟨hkey, hremotes⟩ := Prod.mk.inj hsame
    rw [effectiveErrorModel_of_lookup hlookup, effectiveErrorModel_of_lookup hlookup', hkey,
      hremotes]
    rfl

theorem LoadedTypes.effectiveCheckModel_alike
    {ctype ctype' next next' etype etype' : ℕ} {cached cached' checkModelType : CheckModelType}
    (hcached : types.checkModelTypes.lookup ctype = some cached ∧ cached.key = checkModelType.key ∧
      cached.UsesRemotes) (hcached' : types'.checkModelTypes.lookup ctype' = some cached' ∧
      cached'.key = checkModelType.key ∧ cached'.UsesRemotes) (huses : checkModelType.UsesRemotes)
    (halike : EtypesAlike next next' types.errorModelTypes types'.errorModelTypes etype etype')
    (checkModel : CheckModel K) :
    types.effectiveCheckModel { JitController.withTerminalEtype checkModel etype with
      ctype := ctype
      rerouteRemoteGadgets := buildCheckModelModifier checkModelType } =
    types'.effectiveCheckModel { JitController.withTerminalEtype checkModel etype' with
      ctype := ctype'
      rerouteRemoteGadgets := buildCheckModelModifier checkModelType } := by
  obtain ⟨hlookup, hkey, hremotes⟩ := hcached
  obtain ⟨hlookup', hkey', hremotes'⟩ := hcached'
  rw [effectiveCheckModel_eq hlookup hkey hremotes huses rfl,
    effectiveCheckModel_eq hlookup' hkey' hremotes' huses rfl]
  dsimp only [JitController.withTerminalEtype]
  cases checkModel.terminalErrorModel with
  | none => rfl
  | some terminal =>
    rw [map_some, map_some, bind_some, bind_some, effectiveErrorModel_alike halike terminal]

theorem LoadedTypes.effectiveErrorModel_compiled {cached cached' errorModelType : ErrorModelType K}
    (hcached : types.errorModelTypes.lookup etype = some cached ∧ cached.key = errorModelType.key ∧
      cached.UsesRemotes) (hcached' : types'.errorModelTypes.lookup etype' = some cached' ∧
      cached'.key = errorModelType.key ∧ cached'.UsesRemotes) (huses : errorModelType.UsesRemotes)
    (cid eid : ℕ) (compiled : ErrorModel K) : types.effectiveErrorModel
        ⟨etype, cid, buildErrorModelModifier errorModelType compiled, eid⟩ =
      types'.effectiveErrorModel
        ⟨etype', cid, buildErrorModelModifier errorModelType compiled, eid⟩ := by
  obtain ⟨hlookup, hkey, hremotes⟩ := hcached
  obtain ⟨hlookup', hkey', hremotes'⟩ := hcached'
  rw [effectiveErrorModel_eq hlookup hkey hremotes huses rfl,
    effectiveErrorModel_eq hlookup' hkey' hremotes' huses rfl]
  rfl

end Terminals

section Alike

variable {K : Type}

/-- Stages of a task that differ in the number of the terminal type. -/
inductive StageAlike (alike : ℕ → ℕ → Prop) : TaskStage K → TaskStage K → Prop
  | checkModel
      {checkModelType : CheckModelType}
      (checkModel : CheckModel K)
      (future : ErrorModelFuture K)
      {etype etype' : ℕ}
      (huses : checkModelType.UsesRemotes)
      (halike : alike etype etype') :
      StageAlike alike
        (.checkModel checkModelType (JitController.withTerminalEtype checkModel etype) future)
        (.checkModel checkModelType (JitController.withTerminalEtype checkModel etype') future)
  | resolving (future : ErrorModelFuture K) :
      StageAlike alike (.resolving future) (.resolving future)
  | errorModel
      {errorModelType : ErrorModelType K}
      (errorModel : ErrorModel K)
      (huses : errorModelType.UsesRemotes) :
      StageAlike alike (.errorModel errorModelType errorModel)
        (.errorModel errorModelType errorModel)
  | done : StageAlike alike .done .done

/-- Tasks of the same gadget in stages that are alike. -/
structure TaskAlike (alike : ℕ → ℕ → Prop) (task task' : ControllerTask K) : Prop where
  gid : task.gid = task'.gid
  stage : StageAlike alike task.stage task'.stage

theorem StageAlike.mono {alike later : ℕ → ℕ → Prop}
    (hmono : ∀ etype etype', alike etype etype' → later etype etype') {stage stage' : TaskStage K}
    (h : StageAlike alike stage stage') : StageAlike later stage stage' := by
  cases h with
  | checkModel checkModel future huses halike =>
    exact .checkModel checkModel future huses (hmono _ _ halike)
  | resolving future => exact .resolving future
  | errorModel errorModel huses => exact .errorModel errorModel huses
  | done => exact .done

theorem TaskAlike.mono {alike later : ℕ → ℕ → Prop}
    (hmono : ∀ etype etype', alike etype etype' → later etype etype')
    {task task' : ControllerTask K} (h : TaskAlike alike task task') : TaskAlike later task task' :=
  ⟨h.gid, h.stage.mono hmono⟩

/-- Coordinators that have seen the same, with the same types of ports and gadgets. -/
structure RecorderAlike (recorder recorder' : Recorder K) : Prop where
  seen : recorder.seen = recorder'.seen
  types : recorder.types.SameGadgets recorder'.types

theorem RecorderAlike.load {recorder recorder' : Recorder K} (h : RecorderAlike recorder recorder')
    {loaded loaded' : LoadedTypes K} (hsame : recorder.types.SameGadgets loaded)
    (hsame' : recorder'.types.SameGadgets loaded') :
    RecorderAlike { recorder with types := loaded } { recorder' with types := loaded' } where
  seen := h.seen
  types := ⟨hsame.portTypes.symm.trans (h.types.portTypes.trans hsame'.portTypes),
    hsame.gadgetTypes.symm.trans (h.types.gadgetTypes.trans hsame'.gadgetTypes)⟩

theorem RecorderAlike.see {answers : CoordinatorAnswers K} {recorder recorder' : Recorder K}
    (h : RecorderAlike recorder recorder') (request : SeenRequest K) :
    Option.Rel (fun answered answered' => RecorderAlike answered.1 answered'.1 ∧
        answered.1.types = recorder.types ∧ answered'.1.types = recorder'.types ∧
        answered.2 = answered'.2)
      (recorder.see answers request) (recorder'.see answers request) := by
  rw [Recorder.see, Recorder.see, h.seen, h.types.portTypes, h.types.gadgetTypes]
  cases answers.execute recorder'.types.portTypes recorder'.types.gadgetTypes
      (recorder'.seen ++ [request]) with
  | none => exact .none
  | some answer => exact .some ⟨⟨rfl, h.types⟩, rfl, rfl, rfl⟩

/-- The numbers of the same error model types at two controllers. -/
abbrev JitController.EtypesAlike (controller controller' : JitController K (Recorder K))
    (recorder recorder' : Recorder K) :
    ℕ → ℕ → Prop :=
  QdkEc.EtypesAlike controller.nextEtype controller'.nextEtype recorder.types.errorModelTypes
    recorder'.types.errorModelTypes

variable [LinearOrder K]

/-- Controllers in lockstep: they differ in the numbers of types, and in their caches. -/
structure JitController.Lockstep (controller controller' : JitController K (Recorder K))
    (recorder recorder' : Recorder K) :
    Prop where
  coordinator : controller.coordinator = some recorder
  coordinator' : controller'.coordinator = some recorder'
  library : controller.library = controller'.library
  compiler : controller.compiler = controller'.compiler
  recorders : RecorderAlike recorder recorder'
  consistent : controller.Consistent recorder.types
  consistent' : controller'.Consistent recorder'.types
  terminals : ∀ gtype, Option.Rel (controller.EtypesAlike controller' recorder recorder')
    (controller.terminalEtypes.lookup gtype) (controller'.terminalEtypes.lookup gtype)
  tasks : List.Forall₂ (TaskAlike (controller.EtypesAlike controller' recorder recorder'))
    controller.tasks controller'.tasks

def JitController.InLockstep (controller controller' : JitController K (Recorder K)) : Prop :=
  ∃ recorder recorder', controller.Lockstep controller' recorder recorder'

end Alike

namespace JitController

section Steps

variable {K W : Type} [LinearOrder K] {config : CoordinatorConfig W}
  {answers : CoordinatorAnswers K} {controller controller' : JitController K (Recorder K)}
  {recorder recorder' : Recorder K}

theorem Lockstep.load (h : controller.Lockstep controller' recorder recorder')
    {loaded loaded' : Recorder K} (hrecorders : RecorderAlike loaded loaded')
    {nextCtype nextCtype' nextEtype nextEtype' : ℕ} {typeCache typeCache' : TypeCache K}
    (hconsistent : Consistent { controller with
      nextCtype := nextCtype
      nextEtype := nextEtype
      typeCache := typeCache } loaded.types)
    (hconsistent' : Consistent { controller' with
      nextCtype := nextCtype'
      nextEtype := nextEtype'
      typeCache := typeCache' } loaded'.types)
    (hextends : ExtendsTypes controller.nextEtype nextEtype recorder.types.errorModelTypes
      loaded.types.errorModelTypes)
    (hextends' : ExtendsTypes controller'.nextEtype nextEtype' recorder'.types.errorModelTypes
      loaded'.types.errorModelTypes) :
    Lockstep
      { controller with
        nextCtype := nextCtype
        nextEtype := nextEtype
        typeCache := typeCache
        coordinator := some loaded }
      { controller' with
        nextCtype := nextCtype'
        nextEtype := nextEtype'
        typeCache := typeCache'
        coordinator := some loaded' } loaded loaded' := by
  have hmono : ∀ etype etype',
      controller.EtypesAlike controller' recorder recorder' etype etype' →
        QdkEc.EtypesAlike nextEtype nextEtype' loaded.types.errorModelTypes
          loaded'.types.errorModelTypes etype etype' :=
    fun _ _ halike => halike.extend hextends hextends'
  exact {
    coordinator := rfl
    coordinator' := rfl
    library := h.library
    compiler := h.compiler
    recorders := hrecorders
    consistent := ⟨hconsistent.ctypes_lt, hconsistent.etypes_lt, hconsistent.cachedChecks,
      hconsistent.cachedErrors⟩
    consistent' := ⟨hconsistent'.ctypes_lt, hconsistent'.etypes_lt, hconsistent'.cachedChecks,
      hconsistent'.cachedErrors⟩
    terminals := fun gtype => rel_mono (h.terminals gtype) hmono
    tasks := h.tasks.imp fun _ _ htask => htask.mono hmono }

theorem Lockstep.setStage (h : controller.Lockstep controller' recorder recorder') (task gid : ℕ)
    {stage stage' : TaskStage K}
    (hstage : StageAlike (controller.EtypesAlike controller' recorder recorder') stage stage') :
    (controller.setStage task gid stage).Lockstep (controller'.setStage task gid stage') recorder
      recorder' where
  coordinator := h.coordinator
  coordinator' := h.coordinator'
  library := h.library
  compiler := h.compiler
  recorders := h.recorders
  consistent := { h.consistent with }
  consistent' := { h.consistent' with }
  terminals := h.terminals
  tasks := forall₂_set h.tasks (show TaskAlike _ ⟨gid, stage⟩ ⟨gid, stage'⟩ from ⟨rfl, hstage⟩) task

variable [Zero K] [One K] [ToString K]

theorem Lockstep.bindCheckModel (h : controller.Lockstep controller' recorder recorder')
    (task gid : ℕ) {checkModelType : CheckModelType} (huses : checkModelType.UsesRemotes)
    (checkModel : CheckModel K)
    (halike : controller.EtypesAlike controller' recorder recorder' etype etype')
    (future : ErrorModelFuture K) : Option.Rel InLockstep
      (controller.bindCheckModel (recorderClient config answers) task gid checkModelType
        (withTerminalEtype checkModel etype) future)
      (controller'.bindCheckModel (recorderClient config answers) task gid checkModelType
        (withTerminalEtype checkModel etype') future) := by
  obtain ⟨nextCtype, typeCache, loaded, ctype, cached, hload, hconsistent, hsame, herrors,
    hcached⟩ := h.consistent.getOrLoadCtype huses
  obtain ⟨nextCtype', typeCache', loaded', ctype', cached', hload', hconsistent', hsame', herrors',
    hcached'⟩ := h.consistent'.getOrLoadCtype huses
  rw [JitController.bindCheckModel, JitController.bindCheckModel, h.coordinator, h.coordinator',
    bind_eq_bind, bind_eq_bind, bind_some, bind_some, hload, hload',
    bind_eq_bind, bind_eq_bind, bind_some, bind_some]
  rw [JitController.EtypesAlike, ← herrors, ← herrors'] at halike
  dsimp only [recorderClient, LoadedTypes.effectiveRequest]
  rw [LoadedTypes.effectiveCheckModel_alike hcached hcached' huses halike checkModel]
  refine rel_bind ((h.recorders.load hsame hsame').see _) fun answered answered' hanswered => ?_
  obtain ⟨hrecorders, htypes, htypes', hanswer⟩ := hanswered
  rw [hanswer]
  refine rel_bind_self _ fun _ _ => .some ⟨answered.1, answered'.1, ?_⟩
  refine (h.load hrecorders ?_ ?_ ?_ ?_).setStage task gid (.resolving future)
  · rw [htypes]
    exact hconsistent
  · rw [htypes']
    exact hconsistent'
  · rw [htypes, herrors]
    exact .refl
  · rw [htypes', herrors']
    exact .refl

theorem Lockstep.attachErrorModel (h : controller.Lockstep controller' recorder recorder')
    (task gid : ℕ) {errorModelType : ErrorModelType K} (huses : errorModelType.UsesRemotes)
    (errorModel : ErrorModel K) : Option.Rel InLockstep
      (controller.attachErrorModel (recorderClient config answers) task gid errorModelType
        errorModel)
      (controller'.attachErrorModel (recorderClient config answers) task gid errorModelType
        errorModel) := by
  obtain ⟨nextEtype, typeCache, loaded, etype, cached, hload, hconsistent, hsame, hextends,
    hcached⟩ := h.consistent.getOrLoadEtype huses
  obtain ⟨nextEtype', typeCache', loaded', etype', cached', hload', hconsistent', hsame',
    hextends', hcached'⟩ := h.consistent'.getOrLoadEtype huses
  rw [JitController.attachErrorModel, JitController.attachErrorModel, h.coordinator,
    h.coordinator', bind_eq_bind, bind_eq_bind, bind_some, bind_some,
    hload, hload', bind_some, bind_some]
  dsimp only [recorderClient, LoadedTypes.effectiveRequest]
  rw [LoadedTypes.effectiveErrorModel_compiled hcached hcached' huses]
  refine rel_bind ((h.recorders.load hsame hsame').see _) fun answered answered' hanswered => ?_
  obtain ⟨hrecorders, htypes, htypes', -⟩ := hanswered
  refine .some ⟨answered.1, answered'.1, ?_⟩
  refine (h.load hrecorders ?_ ?_ ?_ ?_).setStage task gid .done
  · rw [htypes]
    exact hconsistent
  · rw [htypes']
    exact hconsistent'
  · rw [htypes]
    exact hextends
  · rw [htypes']
    exact hextends'

omit [Zero K] [One K] [ToString K] in
theorem Lockstep.withCompiler (h : controller.Lockstep controller' recorder recorder')
    (compiler : JitCompiler K) :
    Lockstep { controller with compiler := compiler } { controller' with compiler := compiler }
      recorder recorder' where
  coordinator := h.coordinator
  coordinator' := h.coordinator'
  library := h.library
  compiler := rfl
  recorders := h.recorders
  consistent := { h.consistent with }
  consistent' := { h.consistent' with }
  terminals := h.terminals
  tasks := h.tasks

omit [Zero K] [One K] [ToString K] in
theorem Lockstep.resolveErrors (h : controller.Lockstep controller' recorder recorder')
    (task gid : ℕ) (future : ErrorModelFuture K) (orders : List (List ExplicitCheck)) :
    Option.Rel InLockstep (controller.resolveErrors task gid future orders)
      (controller'.resolveErrors task gid future orders) := by
  rw [JitController.resolveErrors, JitController.resolveErrors, h.compiler]
  split
  · refine rel_bind_self _ fun resolved _ => rel_bind_self _ fun checks _ => .some ?_
    exact ⟨recorder, recorder', h.setStage task gid (.resolving _)⟩
  · refine rel_bind_self _ fun _ _ => rel_bind_self _ fun compiler _ =>
      rel_bind_self _ fun errorModelType hbuild => .some ?_
    exact ⟨recorder, recorder', (h.withCompiler compiler).setStage task gid
      (.errorModel _ (buildErrorModelType_usesRemotes hbuild))⟩

theorem Lockstep.advance (h : controller.Lockstep controller' recorder recorder') (task : ℕ)
    (orders : List (List ExplicitCheck)) :
    Option.Rel InLockstep (controller.advance (recorderClient config answers) task orders)
      (controller'.advance (recorderClient config answers) task orders) := by
  rw [JitController.advance, JitController.advance]
  refine rel_bind (rel_getElem? h.tasks task) fun current current' hcurrent => ?_
  obtain ⟨gid, stage⟩ := current
  obtain ⟨gid', stage'⟩ := current'
  obtain ⟨rfl, hstage⟩ := hcurrent
  cases hstage with
  | checkModel checkModel future huses halike =>
    exact h.bindCheckModel task _ huses checkModel halike future
  | resolving future => exact h.resolveErrors task _ future orders
  | errorModel errorModel huses => exact h.attachErrorModel task _ huses errorModel
  | done => exact .none

theorem Lockstep.execute (h : controller.Lockstep controller' recorder recorder')
    (instruction : JitInstruction K) (orders : List (List ExplicitMeasurement)) :
    Option.Rel InLockstep
      ((controller.execute (recorderClient config answers) instruction orders).map Prod.fst)
      ((controller'.execute (recorderClient config answers) instruction orders).map Prod.fst) := by
  have hexecuted : Option.Rel (fun executed executed' => InLockstep executed.1 executed'.1)
      (controller.execute (recorderClient config answers) instruction orders)
      (controller'.execute (recorderClient config answers) instruction orders) := by
    rw [JitController.execute, JitController.execute, h.compiler]
    refine rel_bind_self _ fun compiled hcompiled => ?_
    refine rel_bind (h.terminals _) fun etype etype' halike => ?_
    rw [h.coordinator, h.coordinator', bind_eq_bind, bind_eq_bind, bind_some, bind_some]
    refine rel_bind (h.recorders.see _) fun answered answered' hanswered => ?_
    obtain ⟨hrecorders, htypes, htypes', hanswer⟩ := hanswered
    rw [hanswer]
    refine rel_bind_self _ fun _ _ => .some ⟨answered.1, answered'.1, ?_⟩
    obtain ⟨gadgetType, inputMap, connected, outputChecks, hcompiles⟩ := compile_compiles hcompiled
    obtain ⟨finished, -, hbuild⟩ := hcompiles.checkModelType_eq
    have huses := buildCheckModelType_usesRemotes hbuild
    have hmoved := (h.withCompiler compiled.1).load hrecorders
      (by rw [htypes]; exact (h.withCompiler compiled.1).consistent)
      (by rw [htypes']; exact (h.withCompiler compiled.1).consistent')
      (by rw [htypes]; exact .refl) (by rw [htypes']; exact .refl)
    rw [JitController.EtypesAlike, ← htypes, ← htypes'] at halike
    exact {
      coordinator := rfl
      coordinator' := rfl
      library := h.library
      compiler := rfl
      recorders := hrecorders
      consistent := ⟨hmoved.consistent.ctypes_lt, hmoved.consistent.etypes_lt,
        hmoved.consistent.cachedChecks, hmoved.consistent.cachedErrors⟩
      consistent' := ⟨hmoved.consistent'.ctypes_lt, hmoved.consistent'.etypes_lt,
        hmoved.consistent'.cachedChecks, hmoved.consistent'.cachedErrors⟩
      terminals := hmoved.terminals
      tasks := rel_append hmoved.tasks
        (.cons ⟨rfl, .checkModel compiled.2.checkModel _ huses halike⟩ .nil) }
  exact rel_map hexecuted fun _ _ hinLockstep => hinLockstep

end Steps

section Libraries

variable {K W S : Type} {config : CoordinatorConfig W}

/-- Terminal models that get the next numbers at two controllers. -/
structure Registering (controller controller' : JitController K S)
    (registered registered' : JitController K S × List (ErrorModelType K)) :
    Prop where
  eq : registered.1 = { controller with
    nextEtype := registered.1.nextEtype
    terminalEtypes := registered.1.terminalEtypes }
  eq' : registered'.1 = { controller' with
    nextEtype := registered'.1.nextEtype
    terminalEtypes := registered'.1.terminalEtypes }
  next : registered.1.nextEtype = controller.nextEtype + registered.2.length
  next' : registered'.1.nextEtype = controller'.nextEtype + registered'.2.length
  ids : ∀ j type, registered.2[j]? = some type → type.etype = controller.nextEtype + j
  ids' : ∀ j type, registered'.2[j]? = some type → type.etype = controller'.nextEtype + j
  same : registered.2.map (fun type => (type.key, type.remoteCheckModels)) =
    registered'.2.map fun type => (type.key, type.remoteCheckModels)
  terminals : ∀ gtype, Option.Rel (fun etype etype' =>
      (controller.terminalEtypes.lookup gtype = some etype ∧
        controller'.terminalEtypes.lookup gtype = some etype') ∨
      ∃ j < registered.2.length, etype = controller.nextEtype + j ∧
        etype' = controller'.nextEtype + j)
    (registered.1.terminalEtypes.lookup gtype) (registered'.1.terminalEtypes.lookup gtype)

variable {registered registered' : JitController K S × List (ErrorModelType K)}
  {controller controller' : JitController K S}

theorem Registering.length_eq (h : Registering controller controller' registered registered') :
    registered.2.length = registered'.2.length := by
  have hlength := congrArg List.length h.same
  rwa [length_map, length_map] at hlength

theorem etype_append {types : List (ErrorModelType K)} {next : ℕ} {type : ErrorModelType K}
    (hids : ∀ j other, types[j]? = some other → other.etype = next + j)
    (htype : type.etype = next + types.length) :
    ∀ j other, (types ++ [type])[j]? = some other → other.etype = next + j := by
  intro j other hother
  rcases Nat.lt_trichotomy j types.length with hlt | rfl | hgt
  · rw [getElem?_append_left hlt] at hother
    exact hids j other hother
  · rw [getElem?_concat_length] at hother
    cases hother
    exact htype
  · rw [getElem?_eq_none (by rw [length_append, length_singleton]; omega)] at hother
    cases hother

theorem Registering.step (hcompiler : controller.compiler = controller'.compiler)
    (h : Registering controller controller' registered registered')
    (gadgetType : CoordinatorGadgetType) :
    Option.Rel (Registering controller controller') (registerTerminalType registered gadgetType)
      (registerTerminalType registered' gadgetType) := by
  have hsame : registered.1.compiler = registered'.1.compiler := by rw [h.eq, h.eq', hcompiler]
  rw [registerTerminalType, registerTerminalType, hsame]
  refine rel_bind_self _ fun terminalType _ => .some ?_
  refine ⟨?_, ?_, ?_, ?_, etype_append h.ids h.next, etype_append h.ids' h.next', ?_,
    fun gtype => ?_⟩
  · rw [h.eq]
  · rw [h.eq']
  · rw [length_append, length_singleton, ← Nat.add_assoc, ← h.next]
  · rw [length_append, length_singleton, ← Nat.add_assoc, ← h.next']
  · rw [map_append, map_append, h.same]
    rfl
  · dsimp only
    by_cases hgtype : gtype = gadgetType.gtype
    · subst hgtype
      rw [AList.lookup_insert, AList.lookup_insert]
      refine .some (Or.inr ⟨registered.2.length, ?_, h.next, ?_⟩)
      · rw [length_append, length_singleton]
        exact Nat.lt_succ_self _
      · rw [h.next', h.length_eq]
    · rw [AList.lookup_insert_ne hgtype, AList.lookup_insert_ne hgtype]
      refine rel_mono (h.terminals gtype) fun etype etype' hterminal => ?_
      rcases hterminal with hold | ⟨j, hj, hnew⟩
      · exact Or.inl hold
      · refine Or.inr ⟨j, ?_, hnew⟩
        rw [length_append]
        omega

theorem loadLibrary_alike {types types' : LoadedTypes K} (hsame : types.SameGadgets types')
    {errors errors' : List (ErrorModelType K)}
    (herrors : (loadTypes ErrorModelType.etype types.errorModelTypes errors).2 = none)
    (herrors' : (loadTypes ErrorModelType.etype types'.errorModelTypes errors').2 = none)
    (portTypes : List PortType) (gadgetTypes : List CoordinatorGadgetType) :
    ∃ loaded loaded' answer,
      types.loadLibrary config true ⟨portTypes, gadgetTypes, [], errors⟩ = (loaded, answer) ∧
      types'.loadLibrary config true ⟨portTypes, gadgetTypes, [], errors'⟩ = (loaded', answer) ∧
      loaded.SameGadgets loaded' ∧ (loaded.checkModelTypes = types.checkModelTypes ∧
        loaded'.checkModelTypes = types'.checkModelTypes) ∧
      ((loaded.errorModelTypes = types.errorModelTypes ∧
          loaded'.errorModelTypes = types'.errorModelTypes) ∨ (loaded.errorModelTypes =
            (loadTypes ErrorModelType.etype types.errorModelTypes errors).1 ∧
          loaded'.errorModelTypes =
            (loadTypes ErrorModelType.etype types'.errorModelTypes errors').1)) := by
  rw [LoadedTypes.loadLibrary, LoadedTypes.loadLibrary, tryGuard, if_pos rfl]
  dsimp only
  cases config.lossHandler.validateCapability gadgetTypes config.decoderSupportsLoss with
  | error error => exact ⟨types, types', _, rfl, rfl, hsame, ⟨rfl, rfl⟩, Or.inl ⟨rfl, rfl⟩⟩
  | ok _ =>
    dsimp only
    rw [LoadedTypes.load, LoadedTypes.load, hsame.portTypes, hsame.gadgetTypes]
    dsimp only
    cases (loadTypes PortType.ptype types'.portTypes portTypes).2 with
    | some ptype => exact ⟨_, _, _, rfl, rfl, ⟨rfl, rfl⟩, ⟨rfl, rfl⟩, Or.inl ⟨rfl, rfl⟩⟩
    | none =>
      dsimp only
      cases (loadTypes CoordinatorGadgetType.gtype types'.gadgetTypes gadgetTypes).2 with
      | some gtype => exact ⟨_, _, _, rfl, rfl, ⟨rfl, rfl⟩, ⟨rfl, rfl⟩, Or.inl ⟨rfl, rfl⟩⟩
      | none =>
        dsimp only [loadTypes]
        rw [herrors, herrors']
        exact ⟨_, _, _, rfl, rfl, ⟨rfl, rfl⟩, ⟨rfl, rfl⟩, Or.inr ⟨rfl, rfl⟩⟩

theorem etypesAlike_next {types types' loaded loaded' : GidMap (ErrorModelType K)}
    (hlt : ∀ etype ∈ types, etype < controller.nextEtype)
    (hlt' : ∀ etype ∈ types', etype < controller'.nextEtype)
    (h : Registering controller controller' registered registered')
    (herrors : (loaded = types ∧ loaded' = types') ∨
      (loaded = (loadTypes ErrorModelType.etype types registered.2).1 ∧
        loaded' = (loadTypes ErrorModelType.etype types' registered'.2).1)) {j : ℕ}
    (hj : j < registered.2.length) :
    QdkEc.EtypesAlike registered.1.nextEtype registered'.1.nextEtype loaded loaded'
      (controller.nextEtype + j) (controller'.nextEtype + j) := by
  have hlength := h.length_eq
  have hnext := h.next
  have hnext' := h.next'
  refine ⟨by omega, by omega, ?_⟩
  rcases herrors with ⟨rfl, rfl⟩ | ⟨rfl, rfl⟩
  · rw [AList.lookup_eq_none.mpr fun hmem => absurd (hlt _ hmem) (by omega),
      AList.lookup_eq_none.mpr fun hmem => absurd (hlt' _ hmem) (by omega)]
  · obtain ⟨-, -, hlookup, -⟩ := loadTypes_consecutive h.ids hlt
    obtain ⟨-, -, hlookup', -⟩ := loadTypes_consecutive h.ids' hlt'
    rw [hlookup, hlookup', ← getElem?_map, ← getElem?_map, h.same]

variable [LinearOrder K]

theorem Consistent.loadNext {controller : JitController K S} {types loaded : LoadedTypes K}
    (h : controller.Consistent types) {errors : List (ErrorModelType K)}
    (hids : ∀ j type, errors[j]? = some type → type.etype = controller.nextEtype + j)
    {nextEtype : ℕ} (hnext : nextEtype = controller.nextEtype + errors.length)
    (hchecks : loaded.checkModelTypes = types.checkModelTypes)
    (herrors : loaded.errorModelTypes = types.errorModelTypes ∨ loaded.errorModelTypes =
      (loadTypes ErrorModelType.etype types.errorModelTypes errors).1) (terminalEtypes : GidMap ℕ) :
    Consistent { controller with nextEtype := nextEtype, terminalEtypes := terminalEtypes }
      loaded ∧
    ExtendsTypes controller.nextEtype nextEtype types.errorModelTypes loaded.errorModelTypes := by
  obtain ⟨-, hold, -, hbound⟩ := loadTypes_consecutive hids h.etypes_lt
  have hextends : ExtendsTypes controller.nextEtype nextEtype types.errorModelTypes
      loaded.errorModelTypes := by
    refine ⟨by omega, fun etype hetype => ?_⟩
    rcases herrors with hsame | hloaded
    · rw [hsame]
    · rw [hloaded, hold etype hetype]
  refine ⟨⟨?_, fun etype hetype => ?_, ?_, fun key etype hetype => ?_⟩, hextends⟩
  · rw [hchecks]
    exact h.ctypes_lt
  · rcases herrors with hsame | hloaded
    · rw [hsame] at hetype
      have hlt := h.etypes_lt etype hetype
      dsimp only
      omega
    · rw [hloaded] at hetype
      have hlt := hbound etype hetype
      dsimp only
      omega
  · rw [hchecks]
    exact h.cachedChecks
  · obtain ⟨cached, hcached, hrest⟩ := h.cachedErrors key etype hetype
    refine ⟨cached, ?_, hrest⟩
    rw [hextends.lookup, hcached]
    exact h.etypes_lt _ (AList.lookup_isSome.mp (by rw [hcached, isSome_some]))

variable {answers : CoordinatorAnswers K}

theorem Lockstep.sendLibrary [Zero K] [One K] [ToString K]
    {controller controller' : JitController K (Recorder K)} {recorder recorder' : Recorder K}
    (h : controller.Lockstep controller' recorder recorder') {library library' : JitLibrary K}
    (hlibrary : library = library') :
    Option.Rel (fun sent sent' => InLockstep sent.1 sent'.1 ∧ sent.2 = sent'.2)
      (controller.sendLibrary (recorderClient config answers) recorder library)
      (controller'.sendLibrary (recorderClient config answers) recorder' library') := by
  subst hlibrary
  have hstart : Registering controller controller' (controller, []) (controller', []) := by
    refine ⟨rfl, rfl, rfl, rfl, ?_, ?_, rfl, fun gtype => ?_⟩
    · intro j type htype
      cases htype
    · intro j type htype
      cases htype
    · have hterminals := h.terminals gtype
      dsimp only
      cases hlookup : controller.terminalEtypes.lookup gtype with
      | none =>
        rw [hlookup] at hterminals
        cases hlookup' : controller'.terminalEtypes.lookup gtype with
        | none => exact .none
        | some etype' =>
          rw [hlookup'] at hterminals
          cases hterminals
      | some etype =>
        rw [hlookup] at hterminals
        cases hlookup' : controller'.terminalEtypes.lookup gtype with
        | none =>
          rw [hlookup'] at hterminals
          cases hterminals
        | some etype' => exact .some (Or.inl ⟨rfl, rfl⟩)
  rw [JitController.sendLibrary, JitController.sendLibrary, registerTerminalTypes,
    registerTerminalTypes]
  refine rel_bind (rel_foldlM (fun _ _ gadgetType hregistering =>
    hregistering.step h.compiler gadgetType) hstart) fun registered registered' hregistered => ?_
  obtain ⟨hloaded, -⟩ := loadTypes_consecutive hregistered.ids h.consistent.etypes_lt
  obtain ⟨hloaded', -⟩ := loadTypes_consecutive hregistered.ids' h.consistent'.etypes_lt
  obtain ⟨loaded, loaded', answer, hload, hload', hsame, ⟨hchecks, hchecks'⟩, herrors⟩ :=
    loadLibrary_alike h.recorders.types hloaded hloaded' (library.portTypes.map JitPortType.base)
      (library.gadgetTypes.map JitGadgetType.base)
  dsimp only [recorderClient]
  rw [hload, hload']
  refine .some ⟨⟨{ recorder with types := loaded }, { recorder' with types := loaded' }, ?_⟩, rfl⟩
  obtain ⟨hconsistent, hextends⟩ := h.consistent.loadNext hregistered.ids hregistered.next hchecks
    (herrors.imp And.left And.left) registered.1.terminalEtypes
  obtain ⟨hconsistent', hextends'⟩ := h.consistent'.loadNext hregistered.ids' hregistered.next'
    hchecks' (herrors.imp And.right And.right) registered'.1.terminalEtypes
  have hmono : ∀ etype etype',
      controller.EtypesAlike controller' recorder recorder' etype etype' →
        QdkEc.EtypesAlike registered.1.nextEtype registered'.1.nextEtype loaded.errorModelTypes
          loaded'.errorModelTypes etype etype' :=
    fun _ _ halike => halike.extend hextends hextends'
  have hterminals := hregistered.terminals
  rw [hregistered.eq, hregistered.eq']
  exact {
    coordinator := rfl
    coordinator' := rfl
    library := h.library
    compiler := h.compiler
    recorders := ⟨h.recorders.seen, hsame⟩
    consistent := ⟨hconsistent.ctypes_lt, hconsistent.etypes_lt, hconsistent.cachedChecks,
      hconsistent.cachedErrors⟩
    consistent' := ⟨hconsistent'.ctypes_lt, hconsistent'.etypes_lt, hconsistent'.cachedChecks,
      hconsistent'.cachedErrors⟩
    terminals := by
      intro gtype
      refine rel_mono (hterminals gtype) fun etype etype' hterminal => ?_
      rcases hterminal with ⟨hold, hold'⟩ | ⟨j, hj, rfl, rfl⟩
      · have hrel := h.terminals gtype
        rw [hold, hold'] at hrel
        cases hrel with
        | some halike => exact hmono _ _ halike
      · exact etypesAlike_next h.consistent.etypes_lt h.consistent'.etypes_lt hregistered herrors hj
    tasks := h.tasks.imp fun _ _ htask => htask.mono hmono }

end Libraries

section Runs

variable {K W : Type} [Zero K] [One K] [LinearOrder K] [ToString K] {config : CoordinatorConfig W}
  {answers : CoordinatorAnswers K} {controller controller' : JitController K (Recorder K)}
  {recorder recorder' : Recorder K}

theorem Lockstep.loadLibrary (h : controller.Lockstep controller' recorder recorder')
    (library : JitLibrary K) :
    Option.Rel (fun loaded loaded' => InLockstep loaded.1 loaded'.1 ∧ loaded.2 = loaded'.2)
      (controller.loadLibrary (recorderClient config answers) library)
      (controller'.loadLibrary (recorderClient config answers) library) := by
  rw [JitController.loadLibrary, JitController.loadLibrary, loadCompiler, loadCompiler, h.compiler,
    bind_eq_bind, bind_eq_bind, bind_assoc, bind_assoc]
  refine rel_bind_self _ fun types _ => ?_
  rw [bind_some, bind_some]
  have hloaded := h.withCompiler { controller'.compiler with types := types }
  split
  · exact .some ⟨⟨recorder, recorder', hloaded⟩, rfl⟩
  · split
    · rename_i hnone
      cases h.coordinator.symm.trans hnone
    · rename_i state hstate
      obtain rfl := some_inj.mp (h.coordinator.symm.trans hstate)
      split
      · rename_i hnone
        cases h.coordinator'.symm.trans hnone
      · rename_i state' hstate'
        obtain rfl := some_inj.mp (h.coordinator'.symm.trans hstate')
        exact hloaded.sendLibrary rfl

omit [Zero K] [One K] [ToString K] in
theorem lockstep_of_empty (hcoordinator : controller.coordinator = some recorder)
    (hcoordinator' : controller'.coordinator = some recorder')
    (hlibrary : controller.library = controller'.library)
    (hcompiler : controller.compiler = controller'.compiler)
    (hrecorders : RecorderAlike recorder recorder')
    (hcache : controller.typeCache = .empty K ∧ controller'.typeCache = .empty K)
    (hterminals : controller.terminalEtypes = ∅ ∧ controller'.terminalEtypes = ∅)
    (htasks : controller.tasks = [] ∧ controller'.tasks = [])
    (hctypes : ∀ id ∈ recorder.types.checkModelTypes, id < controller.nextCtype)
    (hctypes' : ∀ id ∈ recorder'.types.checkModelTypes, id < controller'.nextCtype)
    (hetypes : ∀ id ∈ recorder.types.errorModelTypes, id < controller.nextEtype)
    (hetypes' : ∀ id ∈ recorder'.types.errorModelTypes, id < controller'.nextEtype) :
    controller.Lockstep controller' recorder recorder' where
  coordinator := hcoordinator
  coordinator' := hcoordinator'
  library := hlibrary
  compiler := hcompiler
  recorders := hrecorders
  consistent := by
    refine ⟨hctypes, hetypes, fun _ _ hlookup => ?_, fun _ _ hlookup => ?_⟩
    · rw [hcache.1] at hlookup
      cases hlookup
    · rw [hcache.1] at hlookup
      cases hlookup
  consistent' := by
    refine ⟨hctypes', hetypes', fun _ _ hlookup => ?_, fun _ _ hlookup => ?_⟩
    · rw [hcache.2] at hlookup
      cases hlookup
    · rw [hcache.2] at hlookup
      cases hlookup
  terminals := by
    intro gtype
    rw [hterminals.1, hterminals.2]
    exact .none
  tasks := by
    rw [htasks.1, htasks.2]
    exact .nil

omit [Zero K] [One K] [ToString K] in
theorem Lockstep.cancel (h : controller.Lockstep controller' recorder recorder')
    (compiler : JitCompiler K) : Lockstep
      { controller with compiler := compiler, undecodedGids := ∅, tasks := [] }
      { controller' with compiler := compiler, undecodedGids := ∅, tasks := [] }
      recorder recorder' where
  coordinator := h.coordinator
  coordinator' := h.coordinator'
  library := h.library
  compiler := rfl
  recorders := h.recorders
  consistent := { h.consistent with }
  consistent' := { h.consistent' with }
  terminals := h.terminals
  tasks := .nil

/-- A controller without tasks, cached types and terminal types. -/
structure Emptied (controller : JitController K (Recorder K)) : Prop where
  typeCache : controller.typeCache = .empty K
  terminalEtypes : controller.terminalEtypes = ∅
  tasks : controller.tasks = []

omit [Zero K] [One K] [ToString K] in
theorem Lockstep.clear (h : controller.Lockstep controller' recorder recorder')
    (resetLibrary : Bool) :
    Option.Rel (fun cleared cleared' => cleared.Lockstep cleared' recorder recorder' ∧
        (resetLibrary → cleared.Emptied ∧ cleared'.Emptied))
      (controller.clear resetLibrary) (controller'.clear resetLibrary) := by
  cases resetLibrary with
  | false =>
    rw [JitController.clear, JitController.clear, h.compiler]
    exact .some ⟨h.cancel _, Bool.noConfusion⟩
  | true =>
    rw [JitController.clear, JitController.clear, h.library]
    refine rel_bind_self _ fun types _ => .some ⟨?_, fun _ => ⟨⟨rfl, rfl, rfl⟩, ⟨rfl, rfl, rfl⟩⟩⟩
    exact lockstep_of_empty h.coordinator h.coordinator' rfl rfl h.recorders ⟨rfl, rfl⟩
      ⟨rfl, rfl⟩ ⟨rfl, rfl⟩ h.consistent.ctypes_lt h.consistent'.ctypes_lt
      h.consistent.etypes_lt h.consistent'.etypes_lt

theorem Lockstep.reset (h : controller.Lockstep controller' recorder recorder')
    (resetLibrary : Bool) :
    Option.Rel (fun reset reset' => InLockstep reset.1 reset'.1 ∧ reset.2 = reset'.2)
      (controller.reset (recorderClient config answers) resetLibrary)
      (controller'.reset (recorderClient config answers) resetLibrary) := by
  rw [JitController.reset, JitController.reset]
  refine rel_bind (h.clear resetLibrary) fun cleared cleared' hcleared => ?_
  obtain ⟨hlockstep, hemptied⟩ := hcleared
  rw [hlockstep.coordinator, hlockstep.coordinator']
  dsimp only [recorderClient]
  rw [h.recorders.seen]
  cases resetLibrary with
  | false =>
    have hreset : Lockstep
        { cleared with
          coordinator := some ⟨recorder.types, recorder'.seen ++ [.reset false]⟩ }
        { cleared' with
          coordinator := some ⟨recorder'.types, recorder'.seen ++ [.reset false]⟩ }
        ⟨recorder.types, recorder'.seen ++ [.reset false]⟩
        ⟨recorder'.types, recorder'.seen ++ [.reset false]⟩ := by
      have hrecorders : RecorderAlike ⟨recorder.types, recorder'.seen ++ [.reset false]⟩
          ⟨recorder'.types, recorder'.seen ++ [.reset false]⟩ :=
        ⟨rfl, h.recorders.types⟩
      refine hlockstep.load hrecorders ?_ ?_ ?_ ?_
      · exact hlockstep.consistent
      · exact hlockstep.consistent'
      · exact .refl
      · exact .refl
    cases answers.reset (recorder'.seen ++ [.reset false]) with
    | error status => exact .some ⟨⟨_, _, hreset⟩, rfl⟩
    | ok _ => exact .some ⟨⟨_, _, hreset⟩, rfl⟩
  | true =>
    obtain ⟨hempty, hempty'⟩ := hemptied rfl
    have hreset : ∀ nextCtype nextCtype' nextEtype nextEtype', Lockstep
        { cleared with
          coordinator := some ⟨(Recorder.new K).types, recorder'.seen ++ [.reset true]⟩
          nextCtype := nextCtype
          nextEtype := nextEtype }
        { cleared' with
          coordinator := some ⟨(Recorder.new K).types, recorder'.seen ++ [.reset true]⟩
          nextCtype := nextCtype'
          nextEtype := nextEtype' }
        ⟨(Recorder.new K).types, recorder'.seen ++ [.reset true]⟩
        ⟨(Recorder.new K).types, recorder'.seen ++ [.reset true]⟩ := by
      intro nextCtype nextCtype' nextEtype nextEtype'
      refine lockstep_of_empty rfl rfl hlockstep.library hlockstep.compiler ⟨rfl, rfl, rfl⟩
        ⟨hempty.typeCache, hempty'.typeCache⟩ ⟨hempty.terminalEtypes, hempty'.terminalEtypes⟩
        ⟨hempty.tasks, hempty'.tasks⟩ ?_ ?_ ?_ ?_
      all_goals
        intro id hid
        exact absurd hid (AList.notMem_empty id)
    cases answers.reset (recorder'.seen ++ [.reset true]) with
    | error status =>
      exact .some ⟨⟨_, _, hreset cleared.nextCtype cleared'.nextCtype cleared.nextEtype
        cleared'.nextEtype⟩, rfl⟩
    | ok _ =>
      simp only [↓reduceIte]
      refine rel_bind ((hreset 1 1 1 1).sendLibrary hlockstep.library)
        fun sent sent' hsent => ?_
      rw [hsent.2]
      exact rel_bind_self _ fun _ _ => .some hsent

theorem InLockstep.step (h : controller.InLockstep controller') (event : ControllerEvent K) :
    Option.Rel InLockstep (controller.step (recorderClient config answers) event)
      (controller'.step (recorderClient config answers) event) := by
  obtain ⟨recorder, recorder', h⟩ := h
  cases event with
  | loadLibrary library => exact rel_map (h.loadLibrary library) fun _ _ hloaded => hloaded.1
  | execute instruction orders => exact h.execute instruction orders
  | advance task orders => exact h.advance task orders
  | reset resetLibrary => exact rel_map (h.reset resetLibrary) fun _ _ hreset => hreset.1

theorem start_inLockstep (library : JitLibrary K) (cacheEnabled cacheEnabled' : Bool) :
    Option.Rel InLockstep
      ((new library cacheEnabled).start (recorderClient config answers) (Recorder.new K))
      ((new library cacheEnabled').start (recorderClient config answers) (Recorder.new K)) := by
  have hnew : Lockstep
      { (new library cacheEnabled : JitController K (Recorder K)) with
        coordinator := some (Recorder.new K) }
      { (new library cacheEnabled' : JitController K (Recorder K)) with
        coordinator := some (Recorder.new K) } (Recorder.new K) (Recorder.new K) := by
    refine lockstep_of_empty rfl rfl rfl rfl ⟨rfl, rfl, rfl⟩ ⟨rfl, rfl⟩ ⟨rfl, rfl⟩ ⟨rfl, rfl⟩
      ?_ ?_ ?_ ?_
    all_goals
      intro id hid
      exact absurd hid (AList.notMem_empty id)
  rw [start, start]
  refine rel_bind (hnew.loadLibrary library) fun loaded loaded' hloaded => ?_
  rw [hloaded.2]
  exact rel_bind_self _ fun _ _ => .some hloaded.1

/-- The cache of types is transparent: after any libraries, instructions, steps of tasks and
resets, a coordinator has seen the same gadgets, check models and error models with the cache as
without it. -/
theorem seen_run_cache (config : CoordinatorConfig W) (answers : CoordinatorAnswers K)
    (library : JitLibrary K) (events : List (ControllerEvent K)) :
    (run (recorderClient config answers) library true (Recorder.new K) events).map seen =
      (run (recorderClient config answers) library false (Recorder.new K) events).map seen := by
  have hrun : Option.Rel InLockstep
      (run (recorderClient config answers) library true (Recorder.new K) events)
      (run (recorderClient config answers) library false (Recorder.new K) events) :=
    rel_bind (start_inLockstep library true false) fun _ _ hstart =>
      rel_foldlM (fun _ _ event h => h.step event) hstart
  refine map_eq_of_rel hrun fun controller controller' h => ?_
  obtain ⟨recorder, recorder', h⟩ := h
  rw [seen, seen, h.coordinator, h.coordinator']
  exact h.recorders.seen

end Runs

end JitController

end QdkEc
