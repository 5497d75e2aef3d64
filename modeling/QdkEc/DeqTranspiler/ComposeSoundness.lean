import QdkEc.DeqTranspiler.ComposeBuilder

/-!
# What validation of composed gadgets ensures

This module proves when a definition that all checks accept is built soundly: when the
wires of its body are read linearly.  The program that is built replaces wires by the
ports that wrote them last, so this is the linear use of names.  The checks ensure that
wires are written linearly, but no check looks at a wire that is read.
-/

namespace QdkEc

open List

namespace Compose

variable {env : Environment} {state : BuildState}

/-- What building a program gives: the program that the nodes describe, no producer of a wire, or
another error. -/
inductive BuildResult (state : BuildState) (nodes : List (WireNode ℕ ℕ) × Bool) :
    Except ComposeError (List JitInstruction) → Prop
  | built
      {program : List JitInstruction}
      {rest : List (WiredNode ℕ)}
      (hcomplete : nodes.2 = true)
      (hresolve : resolveNodes state.gid state.wireSource nodes.1 = some rest)
      (hprogram : program.map JitInstruction.wired =
        state.program.map JitInstruction.wired ++ rest) :
      BuildResult state nodes (.ok program)
  | unbound
      {wire : ℕ}
      (hbound : ¬BoundNames (fun wire => state.wireSource wire ≠ none) nodes.1) :
      BuildResult state nodes (.error (.noProducer wire))
  | refused
      {error : ComposeError}
      (herror : ∀ wire, error ≠ .noProducer wire)
      (hcomplete : nodes.2 = false)
      (hbound : BoundNames (fun wire => state.wireSource wire ≠ none) nodes.1) :
      BuildResult state nodes (.error error)

variable {modifier : Option RemoteCorrection} {gadgetType : JitGadgetType}
  {connectors : List (ℕ × ℕ)} {nodes : List (WireNode ℕ ℕ)}

theorem boundNames_cons_iff {node : WireNode ℕ ℕ} :
    BoundNames (fun wire => state.wireSource wire ≠ none) (node :: nodes) ↔
      (∀ wire ∈ node.ins, state.wireSource wire ≠ none) ∧ BoundNames
          (fun wire => (state.add gadgetType connectors modifier node.outs).wireSource wire ≠ none)
          nodes := by
  simp only [BoundNames, BuildState.add, bindPorts_ne_none]

theorem BuildResult.cons {ins outs : List ℕ} {nodes : List (WireNode ℕ ℕ) × Bool}
    {result : Except ComposeError (List JitInstruction)}
    (hconnectors : ins.mapM state.wireSource = some connectors)
    (hlength : outs.length ≤ gadgetType.outputs.length)
    (h : BuildResult (state.add gadgetType connectors modifier outs) nodes result) :
    BuildResult state
      (⟨ins, gadgetType.inputs, outs, gadgetType.outputs⟩ :: nodes.1, nodes.2) result := by
  have hins : ∀ wire ∈ ins, state.wireSource wire ≠ none := fun wire hwire =>
    Option.isSome_iff_ne_none.mp
      (isSome_mapM_iff.mp (Option.isSome_of_eq_some hconnectors) wire hwire)
  cases h with
  | built hcomplete hresolve hprogram =>
    refine .built hcomplete
      (resolveNodes_cons_eq_some.mpr ⟨connectors, _, hconnectors, hlength, hresolve, rfl⟩) ?_
    rw [hprogram, BuildState.add, map_append, append_assoc]
    rfl
  | unbound hbound => exact .unbound fun hall => hbound (boundNames_cons_iff.mp hall).2
  | refused herror hcomplete hbound =>
    exact .refused herror hcomplete (boundNames_cons_iff.mpr ⟨hins, hbound⟩)

theorem mapM_source_cases (state : BuildState) (wires : List ℕ) :
    (∃ connectors, wires.mapM state.wireSource = some connectors ∧
        wires.mapM state.source = .ok connectors) ∨
      (¬∀ wire ∈ wires, state.wireSource wire ≠ none) ∧
        ∃ wire, wires.mapM state.source = .error (.noProducer wire) := by
  induction wires with
  | nil => exact .inl ⟨[], rfl, rfl⟩
  | cons wire wires ih =>
    rw [mapM_cons, mapM_cons]
    cases hwire : state.wireSource wire with
    | none =>
      refine .inr ⟨fun hall => hall wire mem_cons_self hwire, wire, ?_⟩
      rw [BuildState.source, hwire]
      rfl
    | some port =>
      have hsource : state.source wire = .ok port := by rw [BuildState.source, hwire]
      rcases ih with ⟨connectors, hsome, hok⟩ | ⟨hnot, missing, herror⟩
      · refine .inl ⟨port :: connectors, ?_, ?_⟩
        · rw [hsome]
          rfl
        · rw [hsource, hok]
          rfl
      · refine .inr ⟨fun hall => hnot fun other hother => ?_, missing, ?_⟩
        · exact hall other (mem_cons_of_mem _ hother)
        · rw [hsource, herror]
          rfl

/-- Wires have a producer exactly when they have a type. -/
def BuildState.Agree (state : BuildState) : Prop :=
  ∀ wire, state.wireSource wire ≠ none ↔ state.wirePtype wire ≠ none

theorem BuildState.Agree.add {outs : List ℕ} (h : state.Agree)
    (hlength : outs.length ≤ gadgetType.outputs.length) :
    (state.add gadgetType connectors modifier outs).Agree := by
  intro wire
  rw [BuildState.add, bindPorts_ne_none, assignAll_ne_none, map_fst_zip hlength, h wire]

theorem length_readoutHistory_add {outs : List ℕ} :
    (state.add gadgetType connectors modifier outs).readoutHistory.length =
      state.readoutHistory.length + gadgetType.readouts := by
  rw [BuildState.add, length_append, length_map, length_range]

theorem buildOutput_result (outputs : List (ℕ × ℕ)) :
    BuildResult state ([⟨outputs.map Prod.fst, outputs.map Prod.snd, [], []⟩], true)
      (buildOutput state outputs) := by
  rw [buildOutput]
  rcases mapM_source_cases state (outputs.map Prod.fst) with
    ⟨connectors, hsome, hok⟩ | ⟨hnot, wire, herror⟩
  · rw [hok]
    refine .built rfl (resolveNodes_cons_eq_some.mpr
      ⟨connectors, [], hsome, Nat.le_refl _, rfl, rfl⟩) ?_
    rw [map_append]
    rfl
  · rw [herror]
    exact .unbound fun hall => hnot hall.1

theorem pauliToObservableFlips_ne {k wire : ℕ} (paulis : List (Char × ℕ)) :
    pauliToObservableFlips k paulis ≠ .error (.noProducer wire) := by
  induction paulis with
  | nil => nofun
  | cons entry paulis ih =>
    rw [pauliToObservableFlips]
    intro h
    split at h
    · cases h
    · split at h
      · cases h
      · cases hflips : pauliToObservableFlips k paulis with
        | error error =>
          rw [hflips] at h
          cases h
          exact ih hflips
        | ok flips =>
          rw [hflips] at h
          cases h

theorem conditionalModifier_cases (env : Environment) {correction : ConditionalCorrection}
    {ptypes : ℕ → Option ℕ} {ptype : ℕ} (history : List (ℕ × ℕ))
    (hptype : ptypes correction.wire = some ptype) :
    (∃ modifier, conditionalModifier env correction ptype history = .ok modifier ∧
        conditionalPtype env ptypes history.length correction = some ptype) ∨
      (∃ error, conditionalModifier env correction ptype history = .error error ∧
        conditionalPtype env ptypes history.length correction = none ∧
        ∀ wire, error ≠ .noProducer wire) := by
  rw [conditionalModifier, conditionalPtype, hptype]
  dsimp only [Option.bind_eq_bind, Option.bind_some]
  cases env.portType ptype with
  | none => exact .inr ⟨_, rfl, rfl, nofun⟩
  | some portType =>
    dsimp only [Option.bind_some]
    split
    · refine .inr ⟨_, rfl, ?_, nofun⟩
      rw [guard, if_neg (by omega)]
      rfl
    · split
      · refine .inr ⟨_, rfl, ?_, nofun⟩
        rw [guard, if_neg (by omega)]
        rfl
      · rw [guard, if_pos (by omega)]
        cases hflips : pauliToObservableFlips portType.k correction.paulis with
        | error error =>
          refine .inr ⟨error, rfl, rfl, fun wire hwire => ?_⟩
          exact pauliToObservableFlips_ne correction.paulis (hwire ▸ hflips)
        | ok flips => exact .inl ⟨_, rfl, rfl⟩

theorem buildConditional_cases (env : Environment) (correction : ConditionalCorrection)
    (hagree : state.Agree) : (∃ ptype port modifier, state.wireSource correction.wire = some port ∧
        state.wirePtype correction.wire = some ptype ∧
        conditionalPtype env state.wirePtype state.readoutHistory.length correction = some ptype ∧
        buildConditional env state correction = .ok (state.add (identityGadgetType ptype) [port]
          (some modifier) [correction.wire])) ∨
      (∃ error, buildConditional env state correction = .error error ∧
        conditionalPtype env state.wirePtype state.readoutHistory.length correction = none ∧
        ∀ wire, error ≠ .noProducer wire) := by
  rw [buildConditional]
  cases hsource : state.wireSource correction.wire with
  | none =>
    have hptype : state.wirePtype correction.wire = none := by
      by_contra hne
      exact (hagree correction.wire).mpr hne hsource
    refine .inr ⟨_, rfl, ?_, nofun⟩
    rw [conditionalPtype, hptype]
    rfl
  | some port =>
    obtain ⟨ptype, hptype⟩ := Option.ne_none_iff_exists'.mp
      ((hagree correction.wire).mp (hsource ▸ Option.some_ne_none port))
    rw [hptype]
    rcases conditionalModifier_cases env state.readoutHistory hptype with
      ⟨modifier, hmodifier, hnode⟩ | ⟨error, hmodifier, hnode, herror⟩
    · refine .inl ⟨ptype, port, modifier, rfl, rfl, hnode, ?_⟩
      change (conditionalModifier env correction ptype state.readoutHistory).bind _ = _
      rw [hmodifier]
      rfl
    · refine .inr ⟨error, ?_, hnode, herror⟩
      change (conditionalModifier env correction ptype state.readoutHistory).bind _ = _
      rw [hmodifier]
      rfl

variable {app : GadgetApplication} {sub : SubDefinition}

theorem buildApplication_cases (state : BuildState)
    (hsub : env.definition app.gadgetName = some sub) :
    (∃ connectors, app.inWires.mapM state.wireSource = some connectors ∧
        app.outWires.length ≤ sub.outputs.length ∧ buildApplication env state app =
          .ok (state.add (sub.gadgetType app.gadgetName) connectors none app.outWires)) ∨
      ((∀ wire ∈ app.inWires, state.wireSource wire ≠ none) ∧
        ¬app.outWires.length ≤ sub.outputs.length ∧ buildApplication env state app =
          .error (.outputPort app.gadgetName sub.outputs.length)) ∨
      (¬∀ wire ∈ app.inWires, state.wireSource wire ≠ none) ∧
        ∃ wire, buildApplication env state app = .error (.noProducer wire) := by
  have hlookup : env.lookup app.gadgetName = .ok sub := by rw [Environment.lookup, hsub]
  rw [buildApplication, hlookup]
  rcases mapM_source_cases state app.inWires with
    ⟨connectors, hsome, hok⟩ | ⟨hnot, wire, herror⟩
  · by_cases hlength : app.outWires.length ≤ sub.outputs.length
    · refine .inl ⟨connectors, hsome, hlength, ?_⟩
      rw [hok]
      change (if app.outWires.length ≤ sub.outputs.length then _ else _) = _
      rw [if_pos hlength]
      rfl
    · refine .inr (.inl ⟨fun wire hwire => ?_, hlength, ?_⟩)
      · exact Option.isSome_iff_ne_none.mp
          (isSome_mapM_iff.mp (Option.isSome_of_eq_some hsome) wire hwire)
      · rw [hok]
        change (if app.outWires.length ≤ sub.outputs.length then _ else _) = _
        rw [if_neg hlength]
        rfl
  · refine .inr (.inr ⟨hnot, wire, ?_⟩)
    rw [herror]
    rfl

theorem buildItems_result (outputs : List (ℕ × ℕ)) {items : List Item} (hagree : state.Agree)
    (hdefined : ∀ app, Item.application app ∈ items → env.definition app.gadgetName ≠ none) :
    BuildResult state (itemNodes env outputs state.wirePtype state.readoutHistory.length items)
      ((items.foldlM (buildItem env) state).bind fun state => buildOutput state outputs) := by
  induction items generalizing state with
  | nil => exact buildOutput_result outputs
  | cons item items ih =>
    have hrest : ∀ app, Item.application app ∈ items → env.definition app.gadgetName ≠ none :=
      fun app happ => hdefined app (mem_cons_of_mem _ happ)
    rw [foldlM_cons]
    cases item with
    | conditional correction =>
      rw [itemNodes, buildItem]
      rcases buildConditional_cases env correction hagree with
        ⟨ptype, port, modifier, hsource, hptype, hnode, hok⟩ | ⟨error, herror, hnode, hne⟩
      · have hconnectors : [correction.wire].mapM state.wireSource = some [port] := by
          rw [mapM_cons, hsource]
          rfl
        have hsame : (state.add (identityGadgetType ptype) [port] (some modifier)
            [correction.wire]).wirePtype = state.wirePtype :=
          (congrArg _ hptype.symm).trans (Function.update_eq_self _ _)
        have hlength : [correction.wire].length ≤ (identityGadgetType ptype).outputs.length :=
          Nat.le_refl 1
        have hitems := @ih (state.add _ [port] (some modifier) _)
          (hagree.add hlength) hrest
        rw [hsame, length_readoutHistory_add] at hitems
        rw [hnode, hok]
        exact hitems.cons hconnectors hlength
      · rw [hnode, herror]
        exact .refused hne rfl trivial
    | application app =>
      obtain ⟨sub, hsub⟩ := Option.ne_none_iff_exists'.mp
        (hdefined app mem_cons_self)
      rw [itemNodes, buildItem, hsub]
      dsimp only
      rcases buildApplication_cases state hsub with
        ⟨connectors, hsome, hlength, hok⟩ | ⟨hins, hlength, herror⟩ | ⟨hnot, wire, herror⟩
      · have hlength' : app.outWires.length ≤ (sub.gadgetType app.gadgetName).outputs.length :=
          hlength
        have hitems := @ih (state.add _ connectors none _)
          (hagree.add hlength') hrest
        rw [length_readoutHistory_add] at hitems
        rw [if_pos hlength, hok]
        exact hitems.cons hsome hlength'
      · rw [if_neg hlength, herror]
        exact .refused nofun rfl ⟨hins, trivial⟩
      · rw [herror]
        refine .unbound fun hall => hnot ?_
        split at hall
        · exact hall.1
        · exact hall.1

theorem buildInputs_result {inputs : List (PortStatement × ℕ)} (start : ℕ)
    {nodes : List (WireNode ℕ ℕ) × Bool} {result : Except ComposeError (List JitInstruction)}
    (h : BuildResult ((inputs.zipIdx start).foldl buildInput state) nodes result) :
    BuildResult state (inputs.map inputNode ++ nodes.1, nodes.2) result := by
  induction inputs generalizing state start with
  | nil => exact h
  | cons input inputs ih =>
    have hlength : [input.1.firstWire].length ≤ [input.2].length := Nat.le_refl 1
    exact (ih (start + 1) h).cons (rfl : [].mapM state.wireSource = some []) hlength

theorem wirePtype_buildInputs (inputs : List (PortStatement × ℕ)) (start : ℕ) :
    ((inputs.zipIdx start).foldl buildInput state).wirePtype =
      assignAll state.wirePtype (inputs.map fun entry => (entry.1.firstWire, entry.2)) := by
  induction inputs generalizing state start with
  | nil => rfl
  | cons input inputs ih => exact ih (start + 1)

theorem readoutHistory_buildInputs (inputs : List (PortStatement × ℕ)) (start : ℕ) :
    ((inputs.zipIdx start).foldl buildInput state).readoutHistory = state.readoutHistory := by
  induction inputs generalizing state start with
  | nil => rfl
  | cons input inputs ih => exact (ih (start + 1)).trans (append_nil _)

theorem BuildState.Agree.buildInputs (h : state.Agree) (inputs : List (PortStatement × ℕ))
    (start : ℕ) : ((inputs.zipIdx start).foldl buildInput state).Agree := by
  induction inputs generalizing state start with
  | nil => exact h
  | cons input inputs ih =>
    have hlength : [input.1.firstWire].length ≤ [input.2].length := Nat.le_refl 1
    exact ih (h.add hlength) (start + 1)

theorem mapM_ptype_cases {A : Type} (env : Environment) (code : A → String) (entries : List A) :
    (∃ ptypes, (entries.mapM fun entry => env.ptypeOfCode (code entry)) = some ptypes ∧
        (entries.mapM fun entry => env.ptype (code entry)) = .ok ptypes) ∨
      (entries.mapM fun entry => env.ptypeOfCode (code entry)) = none ∧
        ∃ name, (entries.mapM fun entry => env.ptype (code entry)) =
          .error (.unknownCode name) := by
  induction entries with
  | nil => exact .inl ⟨[], rfl, rfl⟩
  | cons entry entries ih =>
    rw [mapM_cons, mapM_cons]
    cases hptype : env.ptypeOfCode (code entry) with
    | none =>
      refine .inr ⟨rfl, code entry, ?_⟩
      rw [Environment.ptype, hptype]
      rfl
    | some ptype =>
      have hcode : env.ptype (code entry) = .ok ptype := by rw [Environment.ptype, hptype]
      rcases ih with ⟨ptypes, hsome, hok⟩ | ⟨hnone, name, herror⟩
      · refine .inl ⟨ptype :: ptypes, ?_, ?_⟩
        · rw [hsome]
          rfl
        · rw [hcode, hok]
          rfl
      · refine .inr ⟨?_, name, ?_⟩
        · rw [hnone]
          rfl
        · rw [hcode, herror]
          rfl

variable {apps : List GadgetApplication}

theorem forM_lookup (hdefined : ∀ app ∈ apps, env.definition app.gadgetName ≠ none) :
    (apps.forM fun app => (env.lookup app.gadgetName).map fun _ => ()) = .ok () := by
  induction apps with
  | nil => rfl
  | cons app apps ih =>
    obtain ⟨sub, hsub⟩ := Option.ne_none_iff_exists'.mp (hdefined app mem_cons_self)
    rw [List.forM, Environment.lookup, hsub]
    exact ih fun other hother => hdefined other (mem_cons_of_mem _ hother)

variable {body : ExpandedBody}

theorem mem_applications_iff : app ∈ body.applications ↔ Item.application app ∈ body.items := by
  rw [ExpandedBody.applications, mem_filterMap]
  constructor
  · rintro ⟨item, hitem, happ⟩
    cases item with
    | application other =>
      cases happ
      exact hitem
    | conditional correction => cases happ
  · exact fun h => ⟨_, h, rfl⟩

theorem build_result (body : ExpandedBody)
    (hdefined : ∀ app ∈ body.applications, env.definition app.gadgetName ≠ none) :
    BuildResult .initial (bodyNodes env body) (build env body) := by
  rw [build, bodyNodes]
  rcases mapM_ptype_cases env PortStatement.codeName body.inputs with
    ⟨inPtypes, hin, hin'⟩ | ⟨hin, name, hin'⟩
  · rcases mapM_ptype_cases env Prod.snd (portWires body.outputs) with
      ⟨outPtypes, hout, hout'⟩ | ⟨hout, name, hout'⟩
    · rw [hin, hin', hout, hout', forM_lookup hdefined]
      have hagree : BuildState.initial.Agree := fun wire =>
        ⟨fun h => (h rfl).elim, fun h => (h rfl).elim⟩
      have hitems := buildItems_result
        (((portWires body.outputs).map Prod.fst).zip outPtypes)
        (hagree.buildInputs (body.inputs.zip inPtypes) 0)
        fun app happ => hdefined app (mem_applications_iff.mpr happ)
      rw [wirePtype_buildInputs, readoutHistory_buildInputs] at hitems
      exact buildInputs_result 0 hitems
    · rw [hin, hin', hout, hout', forM_lookup hdefined]
      exact .refused nofun rfl trivial
  · rw [hin, hin']
    exact .refused nofun rfl trivial

/-- What is checked of an application: it is defined and writes no more wires than it has ports. -/
def WiresFit (env : Environment) (app : GadgetApplication) : Prop :=
  ∃ sub, env.definition app.gadgetName = some sub ∧
    app.outWires.length ≤ sub.outputPorts.length

theorem wiresFit_applyWires {name : String} {wires : List ℕ}
    (hsub : env.definition name = some sub) : WiresFit env (sub.applyWires name wires) :=
  ⟨sub, hsub, length_take_le _ _⟩

theorem wiresFit_of_explicit {repeats : ℕ} (h : checkExplicitApplication env repeats app = .ok ()) :
    WiresFit env app := by
  rw [checkExplicitApplication, Environment.lookup] at h
  cases hsub : env.definition app.gadgetName with
  | none =>
    rw [hsub] at h
    cases h
  | some sub =>
    rw [hsub] at h
    refine ⟨sub, hsub, ?_⟩
    change (if app.inWires.length = sub.inputPorts.length ∧
      app.outWires.length = sub.outputPorts.length then _ else _) = _ at h
    split at h
    · rename_i hlength
      exact Nat.le_of_eq hlength.2
    · cases h

mutual

theorem wiresFit_of_checkStatement {repeats : ℕ} :
    ∀ {statement : ComposeStatement}, checkStatement env repeats statement = .ok () →
      ∀ app, Item.application app ∈ (expandStatement env statement).items → WiresFit env app
  | .application app => by
    intro h other hother
    rw [checkStatement] at h
    split at h
    · cases h
    · rename_i hsome
      rw [expandStatement] at hother
      split at hother
      · obtain ⟨sub, hsub⟩ := Option.ne_none_iff_exists'.mp
          fun hnone => hsome (Option.isNone_iff_eq_none.mpr hnone)
        rw [hsub] at hother
        cases mem_singleton.mp hother
        exact wiresFit_applyWires hsub
      · cases mem_singleton.mp hother
        exact wiresFit_of_explicit h
  | .repeatBlock count body => by
    intro h app happ
    rw [checkStatement] at h
    rw [expandStatement] at happ
    have hbody := wiresFit_of_checkBody h
    induction count with
    | zero => cases happ
    | succ count ih =>
      rcases mem_append.mp happ with hfirst | hrest
      · exact hbody app hfirst
      · exact ih hrest
  | .input port => fun _ _ happ => (not_mem_nil happ).elim
  | .output port => fun _ _ happ => (not_mem_nil happ).elim
  | .conditional correction => by
    intro _ app happ
    cases mem_singleton.mp happ
  | .instruction name targets => by
    intro h app happ
    rw [expandStatement] at happ
    cases hsub : env.definition name with
    | none =>
      rw [hsub] at happ
      cases happ
    | some sub =>
      rw [hsub] at happ
      cases mem_singleton.mp happ
      exact wiresFit_applyWires hsub
  | .unsupported kind => fun _ _ happ => (not_mem_nil happ).elim

theorem wiresFit_of_checkBody {repeats : ℕ} :
    ∀ {body : List ComposeStatement}, checkBody env repeats body = .ok () →
      ∀ app, Item.application app ∈ (expandBody env body).items → WiresFit env app
  | [] => fun _ _ happ => (not_mem_nil happ).elim
  | statement :: body => by
    intro h app happ
    rw [checkBody] at h
    split at h
    · cases h
    · rename_i hstatement
      rw [expandBody] at happ
      rcases mem_append.mp happ with hfirst | hrest
      · exact wiresFit_of_checkStatement hstatement app hfirst
      · exact wiresFit_of_checkBody h app hrest

end

variable {wires : LiveWires}

theorem mem_live_produce {wire other : ℕ} {producer : Producer} :
    other ∈ (wires.produce wire producer).live ↔ other = wire ∨ other ∈ wires.live :=
  AList.mem_insert _

theorem dangling_produce {wire : ℕ} {producer : Producer}
    (h : (wires.produce wire producer).dangling = []) :
    wires.dangling = [] ∧ wire ∉ wires.live := by
  rw [LiveWires.produce] at h
  split at h
  · cases (append_eq_nil_iff.mp h).2
  · rename_i hlookup
    exact ⟨h, AList.lookup_eq_none.mp hlookup⟩

section Produce

variable {A : Type} {wire : A → ℕ} {producer : A → Producer}

theorem mem_live_foldl_produce {entries : List A} {other : ℕ} :
    other ∈ (entries.foldl (fun wires entry => wires.produce (wire entry) (producer entry))
        wires).live ↔ other ∈ wires.live ∨ other ∈ entries.map wire := by
  induction entries generalizing wires with
  | nil => simp
  | cons entry entries ih =>
    rw [foldl_cons, ih, mem_live_produce, map_cons, mem_cons]
    tauto

theorem dangling_foldl_produce {entries : List A}
    (h : (entries.foldl (fun wires entry => wires.produce (wire entry) (producer entry))
      wires).dangling = []) : wires.dangling = [] ∧ (entries.map wire).Nodup ∧
      ∀ other ∈ entries.map wire, other ∉ wires.live := by
  induction entries generalizing wires with
  | nil => exact ⟨h, nodup_nil, fun _ hmem => (not_mem_nil hmem).elim⟩
  | cons entry entries ih =>
    obtain ⟨hdangling, hnodup, hfresh⟩ := ih h
    obtain ⟨hdangling, hnew⟩ := dangling_produce hdangling
    refine ⟨hdangling, nodup_cons.mpr ⟨fun hmem => ?_, hnodup⟩, fun other hother => ?_⟩
    · exact hfresh _ hmem (mem_live_produce.mpr (.inl rfl))
    · rcases mem_cons.mp hother with rfl | hmem
      · exact hnew
      · exact fun hlive => hfresh other hmem (mem_live_produce.mpr (.inr hlive))

end Produce

theorem mem_live_foldl_consume {ins : List ℕ} {other : ℕ} :
    other ∈ (ins.foldl .consume wires).live ↔ other ∈ wires.live ∧ other ∉ ins := by
  induction ins generalizing wires with
  | nil => simp
  | cons wire ins ih =>
    rw [foldl_cons, ih, LiveWires.consume, AList.mem_erase, mem_cons]
    tauto

theorem dangling_foldl_consume {ins : List ℕ} :
    (ins.foldl .consume wires).dangling = wires.dangling := by
  induction ins generalizing wires with
  | nil => rfl
  | cons wire ins ih => exact ih

theorem map_fst_zipIdx_take (hfit : app.outWires.length ≤ sub.outputPorts.length) :
    ((app.outWires.take sub.outputPorts.length).zipIdx).map Prod.fst = app.outWires := by
  rw [zipIdx_map_fst, take_of_length_le hfit]

variable {index : ℕ}

theorem mem_live_apply {other : ℕ} (hfit : app.outWires.length ≤ sub.outputPorts.length) :
    other ∈ (wires.apply index app sub).live ↔
      other ∈ wires.live ∧ other ∉ app.inWires.take sub.inputPorts.length ∨
        other ∈ app.outWires := by
  rw [LiveWires.apply, mem_live_foldl_produce, mem_live_foldl_consume, map_fst_zipIdx_take hfit]

theorem dangling_apply (hfit : app.outWires.length ≤ sub.outputPorts.length)
    (h : (wires.apply index app sub).dangling = []) : wires.dangling = [] ∧ app.outWires.Nodup ∧
      ∀ wire ∈ app.outWires, wire ∈ app.inWires ∨ wire ∉ wires.live := by
  obtain ⟨hdangling, hnodup, hfresh⟩ := dangling_foldl_produce h
  rw [map_fst_zipIdx_take hfit] at hnodup hfresh
  rw [dangling_foldl_consume] at hdangling
  refine ⟨hdangling, hnodup, fun wire hwire => ?_⟩
  have hnot := hfresh wire hwire
  rw [mem_live_foldl_consume, not_and, not_not] at hnot
  by_cases hlive : wire ∈ wires.live
  · exact .inl (mem_of_mem_take (hnot hlive))
  · exact .inr hlive

theorem applyAll_cons_eq_ok {wires final : LiveWires}
        (hsub : env.definition app.gadgetName = some sub)
    (h : LiveWires.applyAll env wires index (app :: apps) = .ok final) :
    LiveWires.applyAll env (wires.apply index app sub) (index + 1) apps = .ok final := by
  rw [LiveWires.applyAll, Environment.lookup, hsub] at h
  exact h

theorem dangling_applyAll {wires final : LiveWires} (hfit : ∀ app ∈ apps, WiresFit env app)
    (h : LiveWires.applyAll env wires index apps = .ok final) (hdangling : final.dangling = []) :
    wires.dangling = [] := by
  induction apps generalizing wires index with
  | nil =>
    cases h
    exact hdangling
  | cons app apps ih =>
    obtain ⟨sub, hsub, hlength⟩ := hfit app mem_cons_self
    have hrest := ih (fun other hother => hfit other (mem_cons_of_mem _ hother))
      (applyAll_cons_eq_ok hsub h)
    exact (dangling_apply hlength hrest).1

theorem bindsLinearly_items {outputs : List (ℕ × ℕ)} {items : List Item}
    {live ptypes : ℕ → Option ℕ} {readouts index : ℕ} {wires final : LiveWires}
    (hfit : ∀ app ∈ items.filterMap Item.application?, WiresFit env app)
    (happly : LiveWires.applyAll env wires index (items.filterMap Item.application?) = .ok final)
    (hdangling : final.dangling = []) (hdeclared : ∀ wire ∈ final.live, wire ∈ outputs.map Prod.fst)
    (hlive : ∀ wire, live wire ≠ none → wire ∈ wires.live)
    (hcomplete : (itemNodes env outputs ptypes readouts items).2 = true)
    (hreads : ReadsLinearly live (itemNodes env outputs ptypes readouts items).1) :
    BindsLinearly live (itemNodes env outputs ptypes readouts items).1 := by
  induction items generalizing live ptypes readouts index wires with
  | nil =>
    cases happly
    refine ⟨⟨nodup_nil, fun _ hmem => (not_mem_nil hmem).elim⟩, fun wire => ?_⟩
    by_contra hne
    rcases liveAfter_ne_none hne with hout | ⟨hnot, hwire⟩
    · exact not_mem_nil hout
    · exact hnot (hdeclared wire (hlive wire hwire))
  | cons item items ih =>
    cases item with
    | conditional correction =>
      rw [itemNodes] at hcomplete hreads ⊢
      cases hptype : conditionalPtype env ptypes readouts correction with
      | none =>
        rw [hptype] at hcomplete
        cases hcomplete
      | some ptype =>
        rw [hptype] at hcomplete hreads
        obtain ⟨hread, hreads⟩ := hreads
        refine ⟨⟨nodup_singleton _, fun wire hwire => .inl hwire⟩, ?_⟩
        refine ih hfit happly (fun wire hwire => ?_) hcomplete hreads
        rcases liveAfter_ne_none hwire with hout | ⟨-, hold⟩
        · obtain ⟨type, htype, -⟩ := hread.typed 0 correction.wire rfl
          cases mem_singleton.mp hout
          exact hlive _ (htype ▸ Option.some_ne_none type)
        · exact hlive wire hold
    | application app =>
      obtain ⟨sub, hsub, hlength⟩ := hfit app mem_cons_self
      have hfit' : ∀ app ∈ items.filterMap Item.application?, WiresFit env app :=
        fun other hother => hfit other (mem_cons_of_mem _ hother)
      have hrest := applyAll_cons_eq_ok hsub happly
      obtain ⟨-, hnodup, hfresh⟩ :=
        dangling_apply hlength (dangling_applyAll hfit' hrest hdangling)
      rw [itemNodes, hsub] at hcomplete hreads ⊢
      dsimp only at hcomplete hreads ⊢
      split at hcomplete
      · rename_i houts
        rw [if_pos houts] at hreads ⊢
        refine ⟨⟨hnodup, fun wire hwire => ?_⟩, ?_⟩
        · refine (hfresh wire hwire).imp_right fun hnot => ?_
          by_contra hne
          exact hnot (hlive wire hne)
        · refine ih hfit' hrest (fun wire hwire => ?_) hcomplete hreads.2
          refine (mem_live_apply hlength).mpr ?_
          rcases liveAfter_ne_none hwire with hout | ⟨hnot, hold⟩
          · exact .inr hout
          · exact .inl ⟨hlive wire hold, fun hmem => hnot (mem_of_mem_take hmem)⟩
      · cases hcomplete

def LiveWires.produceInputs (wires : LiveWires) (inputs : List PortStatement) : LiveWires :=
  (portWires inputs).foldl (fun wires entry => wires.produce entry.1 (.input entry.2)) wires

theorem bindsLinearly_inputs {inputs : List (PortStatement × ℕ)} {live : ℕ → Option ℕ}
    (hdangling : (wires.produceInputs (inputs.map Prod.fst)).dangling = [])
    (hlive : ∀ wire, live wire ≠ none → wire ∈ wires.live) (hnodes : ∀ live : ℕ → Option ℕ,
      (∀ wire, live wire ≠ none → wire ∈ (wires.produceInputs (inputs.map Prod.fst)).live) →
        ReadsLinearly live nodes → BindsLinearly live nodes)
    (hreads : ReadsLinearly live (inputs.map inputNode ++ nodes)) :
    BindsLinearly live (inputs.map inputNode ++ nodes) := by
  induction inputs generalizing live wires with
  | nil => exact hnodes live hlive hreads
  | cons input inputs ih =>
    have hstep : wires.produceInputs ((input :: inputs).map Prod.fst) =
        (wires.produceInputs [input.1]).produceInputs (inputs.map Prod.fst) := by
      rw [LiveWires.produceInputs, LiveWires.produceInputs, LiveWires.produceInputs,
        ← foldl_append, portWires, portWires, portWires, ← flatMap_append]
      rfl
    rw [hstep] at hdangling hnodes
    obtain ⟨hfirst, -, -⟩ := dangling_foldl_produce hdangling
    obtain ⟨-, -, hfresh⟩ := dangling_foldl_produce hfirst
    have hmem : input.1.firstWire ∈ (portWires [input.1]).map Prod.fst := by
      rw [portWires, flatMap_singleton, map_map]
      exact mem_map.mpr ⟨_, head_mem input.1.nonempty, rfl⟩
    refine ⟨⟨nodup_singleton _, fun wire hwire => .inr ?_⟩, ?_⟩
    · cases mem_singleton.mp hwire
      by_contra hne
      exact hfresh _ hmem (hlive _ hne)
    · refine ih hdangling (fun wire hwire => ?_) hnodes hreads.2
      refine mem_live_foldl_produce.mpr ?_
      rcases liveAfter_ne_none hwire with hout | ⟨-, hold⟩
      · cases mem_singleton.mp hout
        exact .inr hmem
      · exact .inl (hlive wire hold)

theorem validateNoDanglingOutputs_eq_ok (h : validateNoDanglingOutputs env body = .ok ()) :
    ∃ wires, LiveWires.applyAll env (.ofInputs body.inputs) 1 body.applications = .ok wires ∧
      wires.dangling = [] ∧ ∀ wire ∈ wires.live, wire ∈ (portWires body.outputs).map Prod.fst := by
  obtain ⟨wires, hwires, hrest⟩ := exists_of_bind_eq_ok h
  refine ⟨wires, hwires, ?_⟩
  dsimp only at hrest
  split at hrest
  · rename_i hall
    refine ⟨hall.2.2, fun wire hwire => ?_⟩
    have hfilter := filter_eq_nil_iff.mp hall.1 wire (AList.mem_keys.mp hwire)
    simpa using hfilter
  · cases hrest

theorem bodyNodes_cases (hcomplete : (bodyNodes env body).2 = true) :
    ∃ (inputs : List (PortStatement × ℕ)) (outputs : List (ℕ × ℕ)) (ptypes : ℕ → Option ℕ),
      inputs.map Prod.fst = body.inputs ∧
      outputs.map Prod.fst = (portWires body.outputs).map Prod.fst ∧
      (itemNodes env outputs ptypes 0 body.items).2 = true ∧ (bodyNodes env body).1 =
        inputs.map inputNode ++ (itemNodes env outputs ptypes 0 body.items).1 := by
  rw [bodyNodes] at hcomplete ⊢
  split at hcomplete
  · rename_i inPtypes outPtypes hin hout
    refine ⟨_, _, _, map_fst_zip ?_, map_fst_zip ?_, hcomplete, rfl⟩
    · exact Nat.le_of_eq (mapM_eq_some_iff.mp hin).length_eq
    · rw [length_map]
      exact Nat.le_of_eq (mapM_eq_some_iff.mp hout).length_eq
  · cases hcomplete

theorem wiresFit_of_accepts {compose : ComposeDefinition} (haccepts : Accepts env compose) :
    ∀ app ∈ (expandBody env compose.body).applications, WiresFit env app := by
  intro app happ
  have hvalid := haccepts.1
  obtain ⟨_, -, hbody⟩ := exists_of_bind_eq_ok hvalid
  exact wiresFit_of_checkBody hbody app (mem_applications_iff.mp happ)

theorem bindsLinearly_of_accepts {compose : ComposeDefinition} (haccepts : Accepts env compose)
    (hcomplete : (bodyNodes env (expandBody env compose.body)).2 = true)
    (hreads : ReadsLinearly (fun _ => none) (bodyNodes env (expandBody env compose.body)).1) :
    BindsLinearly (fun _ => none) (bodyNodes env (expandBody env compose.body)).1 := by
  have hfit := wiresFit_of_accepts haccepts
  obtain ⟨wires, happly, hdangling, hdeclared⟩ :=
    validateNoDanglingOutputs_eq_ok haccepts.2.2.2
  obtain ⟨inputs, outputs, ptypes, hinputs, houtputs, hitems, hnodes⟩ :=
    bodyNodes_cases hcomplete
  rw [hnodes] at hreads ⊢
  rw [← hinputs] at happly
  rw [← houtputs] at hdeclared
  have hempty : (LiveWires.ofInputs (inputs.map Prod.fst)).dangling = [] :=
    dangling_applyAll hfit happly hdangling
  refine bindsLinearly_inputs hempty
    (fun wire hwire => (hwire rfl).elim) (fun live hlive hreads => ?_) hreads
  exact bindsLinearly_items hfit happly hdangling hdeclared hlive hitems hreads

theorem boundNames_initial_iff :
    BoundNames (fun wire => BuildState.initial.wireSource wire ≠ none) nodes ↔
      BoundNames (fun _ => False) nodes := by
  simp [BuildState.initial]

/-- A definition that all checks accept is built soundly exactly when it reads wires
linearly. -/
theorem validationSuffices_iff (env : Environment) (compose : ComposeDefinition) :
    ValidationSuffices env compose ↔ (Accepts env compose → ReadsWiresLinearly env compose) := by
  refine forall_congr' fun haccepts => ?_
  have hresult := build_result (expandBody env compose.body) fun app happ => by
    obtain ⟨sub, hsub, -⟩ := wiresFit_of_accepts haccepts app happ
    exact hsub ▸ Option.some_ne_none sub
  constructor
  · rintro ⟨hproducer, hsound⟩
    generalize hbuild : build env (expandBody env compose.body) = result at hresult
    cases hresult with
    | built hcomplete hresolve hprogram =>
      have hwired := hsound _ hbuild
      rw [hprogram] at hwired
      refine ⟨boundNames_initial_iff.mp ?_, fun _ => ((soundWiring_iff hresolve).mp hwired).1⟩
      exact (isSome_resolveNodes_iff.mp (Option.isSome_of_eq_some hresolve)).1
    | unbound hbound => exact (hproducer _ hbuild).elim
    | refused herror hcomplete hbound =>
      refine ⟨boundNames_initial_iff.mp hbound, fun htrue => ?_⟩
      rw [hcomplete] at htrue
      cases htrue
  · rintro ⟨hbound, hlinear⟩
    constructor
    · intro wire hbuild
      rw [hbuild] at hresult
      cases hresult with
      | unbound hnot => exact hnot (boundNames_initial_iff.mpr hbound)
      | refused herror _ _ => exact herror wire rfl
    · intro program hbuild
      rw [hbuild] at hresult
      cases hresult with
      | built hcomplete hresolve hprogram =>
        have hreads := hlinear hcomplete
        rw [hprogram]
        exact (soundWiring_iff hresolve).mpr
          ⟨hreads, bindsLinearly_of_accepts haccepts hcomplete hreads⟩

/-- A library with one code and a gadget that reads two wires and writes one. -/
def parityEnvironment : Environment where
  definition name :=
    if name = "Join" then some ⟨["Rep", "Rep"], ["Rep"], [1, 1], [1], 0⟩ else none
  ptypeOfCode name := if name = "Rep" then some 1 else none
  portType ptype := if ptype = 1 then some ⟨1, 2⟩ else none

/-- A wire that is read twice by one clause:
`INPUT Rep 0`, `Join IN(0 0) OUT(0)`, `OUTPUT Rep 0`. -/
def repeatedWire : ComposeDefinition where
  decorators := []
  body := [.input ⟨"Rep", [0], cons_ne_nil 0 []⟩, .application ⟨"Join", some [0, 0], some [0]⟩,
    .output ⟨"Rep", [0], cons_ne_nil 0 []⟩]

/-- A wire that is repeated inside of one clause is accepted, and its port is read twice. -/
theorem repeatedWire_not_sufficient : ¬ValidationSuffices parityEnvironment repeatedWire := by
  intro h
  have hsound := (h ⟨rfl, rfl, rfl, rfl⟩).2 _ rfl
  have honce := hsound.once ⟨1, [], [1], []⟩ mem_cons_self 0 Nat.one_pos
  exact absurd honce (by decide)

end Compose

end QdkEc
