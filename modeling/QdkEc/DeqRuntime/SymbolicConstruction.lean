import QdkEc.DeqRuntime.SymbolicAgreement

/-!
# Adding gadgets to the symbolic propagator

This module shows that the propagator follows the tracker: a gadget that was added to
the tracker is added to the propagator without a panic, and the values of the nodes of
all gadgets solve the part of the frame equations that depends on corrections, with
the outputs of gadgets that are not included held at zero.
-/

namespace QdkEc

open List AList PauliFrameGadget

theorem map_getD_range' {A : Type*} {l : List A} {start width : ℕ}
    (hstop : start + width ≤ l.length) (default : A) :
    (List.range' start width).map (fun i => l.getD i default) = (l.drop start).take width := by
  refine ext_getElem (by simp; omega) fun i hi hi' => ?_
  have hi'' : i < width := by simpa using hi
  have hlt : start + i < l.length := by omega
  simp [hlt]

theorem getD_map_value {nodes : List ℕ} (f : ℕ → Bool) {i : ℕ} (hi : i < nodes.length) :
    (nodes.map f).getD i false = f (nodes.getD i 0) := by
  simp [hi]

/-- The expressions of a gadget belong to a gadget of the tracker. -/
structure SymbolicGadget.Matches (nodes : List SymbolicNode) (gadget : PauliFrameGadget)
    (symbolic : SymbolicGadget) :
    Prop where
  bias : symbolic.outputBias = gadget.outputBias
  bias_sorted : gadget.outputBias.Pairwise (· ≤ ·)
  length_readouts : symbolic.readoutNodes.length = gadget.numReadouts
  length_residual : symbolic.residualNodes.length = gadget.numOutputObservables
  readouts_lt : ∀ node ∈ symbolic.readoutNodes, node < nodes.length
  residual_lt : ∀ node ∈ symbolic.residualNodes, node < nodes.length

variable {symbolic : SymbolicGadget}

theorem SymbolicGadget.Matches.exists_residualSlice_eq {nodes : List SymbolicNode}
    {gadget : PauliFrameGadget} (h : symbolic.Matches nodes gadget)
    (hshaped : gadget.Shaped) {port : ℕ} (hport : port < gadget.outputs.length) :
    ∃ slice, symbolic.residualSlice port = some slice ∧ (∀ node ∈ slice, node < nodes.length) ∧
      slice.length = gadget.portWidth port ∧
      ∀ f : ℕ → Bool, gadget.portSlice (symbolic.residualNodes.map f) port = slice.map f := by
  rw [← hshaped.bias_length] at hport
  have hstart : symbolic.outputBias[port]? = some (gadget.residualStart port) := by
    rw [h.bias, residualStart, getD_eq_getElem _ _ hport, getElem?_eq_getElem hport]
  have hstop : symbolic.outputBias.getD (port + 1) symbolic.residualNodes.length =
      gadget.residualStop port := by
    rw [h.bias, h.length_residual, residualStop]
    split_ifs with hnext
    · rw [getD_eq_getElem _ _ (by omega), getD_eq_getElem _ _ (by omega)]
    · rw [getD_eq_default _ _ (by omega)]
  have hle : gadget.residualStart port ≤ gadget.residualStop port ∧
      gadget.residualStop port ≤ symbolic.residualNodes.length := by
    rw [h.length_residual, residualStart, residualStop, getD_eq_getElem _ _ hport]
    split_ifs with hnext
    · have hnext' : port + 1 < gadget.outputBias.length := by omega
      rw [getD_eq_getElem _ _ hnext']
      refine ⟨?_, hshaped.bias_le _ (getElem_mem _)⟩
      exact pairwise_iff_getElem.mp h.bias_sorted port (port + 1) hport hnext'
        (Nat.lt_succ_self _)
    · exact ⟨hshaped.bias_le _ (getElem_mem _), le_rfl⟩
  have hwidth : gadget.residualStart port + gadget.portWidth port ≤
      symbolic.residualNodes.length := by
    rw [portWidth]
    omega
  refine ⟨(symbolic.residualNodes.drop (gadget.residualStart port)).take (gadget.portWidth port),
    ?_, fun node hnode => ?_, ?_, fun f => ?_⟩
  · rw [residualSlice, hstart, Option.bind_eq_bind, Option.bind_some, hstop]
    dsimp only
    rw [(Option.guard_eq_some' ()).mpr hle, portWidth]
    rfl
  · exact h.residual_lt node (mem_of_mem_drop (mem_of_mem_take hnode))
  · rw [length_take, length_drop]
    omega
  · rw [portSlice, map_getD_range' (by simpa using hwidth), map_take, map_drop]

/-- What the propagator reads of a gadget. -/
def PauliFrameGadget.kernel (gadget : PauliFrameGadget) : PauliFrameGadget :=
  gadget.wiring.core

theorem PauliFrameGadget.eq_of_kernel_eq {A : Type} {f : PauliFrameGadget → A}
    (hf : ∀ gadget : PauliFrameGadget, f gadget.kernel = f gadget)
    {gadget gadget' : PauliFrameGadget} (h : gadget.kernel = gadget'.kernel) :
    f gadget = f gadget' := by
  rw [← hf, h, hf]

variable {gadget' : PauliFrameGadget}

namespace PauliFrameTracker

/-- The part of the frame equation of a gadget that depends on corrections, with the outputs of
gadgets that are not included held at zero. -/
def cutLinearEquation (tracker : PauliFrameTracker) (included : ℕ → Bool)
    (ρ : CorrectionBasis → Bool) (F : ℕ → Option PauliFrame) (gid : ℕ) :
    Option PauliFrame := do
  let gadget ← tracker.gadgets.lookup gid
  if included gid then tracker.linearEquation ρ F gid else some gadget.zeroFrame

/-- The propagator reads the same of the gadgets of two trackers. -/
def SameKernel (tracker tracker' : PauliFrameTracker) : Prop :=
  ∀ u, (tracker'.gadgets.lookup u).map PauliFrameGadget.kernel =
    (tracker.gadgets.lookup u).map PauliFrameGadget.kernel

section SameKernel

variable {tracker tracker' : PauliFrameTracker} (hsame : SameKernel tracker tracker')

include hsame

theorem SameKernel.exists_lookup {u : ℕ} (hgadget' : tracker'.gadgets.lookup u = some gadget') :
    ∃ gadget, tracker.gadgets.lookup u = some gadget ∧ gadget.kernel = gadget'.kernel := by
  have hu := hsame u
  rw [hgadget', Option.map_some] at hu
  exact Option.map_eq_some_iff.mp hu.symm

theorem SameKernel.mem_iff (u : ℕ) : u ∈ tracker'.gadgets ↔ u ∈ tracker.gadgets := by
  rw [← lookup_isSome, ← lookup_isSome, ← Option.isSome_map, hsame u, Option.isSome_map]

theorem SameKernel.bind_eq {A : Type} {f : PauliFrameGadget → Option A}
    (hf : ∀ gadget : PauliFrameGadget, f gadget.kernel = f gadget) (u : ℕ) :
    (tracker'.gadgets.lookup u).bind f = (tracker.gadgets.lookup u).bind f := by
  have hfactor : ∀ o : Option PauliFrameGadget,
      o.bind f = (o.map kernel).bind f := by
    rintro (_ | gadget)
    · rfl
    · exact (hf gadget).symm
  rw [hfactor, hsame u, ← hfactor]

theorem SameKernel.cutLinearEquation_eq :
    tracker'.cutLinearEquation = tracker.cutLinearEquation := by
  have hslice : tracker'.inputSlice = tracker.inputSlice := by
    funext F c
    exact hsame.bind_eq (fun _ => rfl) c.gid
  have hlinear : tracker'.linearEquation = tracker.linearEquation := by
    funext ρ F u
    rw [linearEquation, hslice]
    exact hsame.bind_eq (fun _ => rfl) u
  funext included ρ F u
  rw [cutLinearEquation, hlinear]
  exact hsame.bind_eq (fun _ => rfl) u

end SameKernel

theorem SameCore.sameKernel {tracker tracker' : PauliFrameTracker}
    (hcore : SameCore tracker tracker') : SameKernel tracker tracker' := by
  have hfactor : ∀ o : Option PauliFrameGadget, o.map kernel =
      (o.map core).map kernel := by
    rintro (_ | gadget)
    · rfl
    · simp [kernel, core, wiring]
  intro u
  rw [hfactor, hcore u, ← hfactor]

theorem SameWiring.sameKernel {tracker tracker' : PauliFrameTracker}
    (hwiring : SameWiring tracker tracker') : SameKernel tracker tracker' := by
  have hfactor : ∀ o : Option PauliFrameGadget, o.map kernel =
      (o.map wiring).map core := by
    rintro (_ | gadget) <;> rfl
  intro u
  rw [hfactor, hwiring u, ← hfactor]

end PauliFrameTracker

namespace PauliFrameSymbolicPropagator

variable (p : PauliFrameSymbolicPropagator)

/-- The values of the expressions of a gadget. -/
def frameOf (included : ℕ → Bool) (ρ : CorrectionBasis → Bool) (gid : ℕ) : Option PauliFrame :=
  (p.gadgets.lookup gid).map fun symbolic =>
    ⟨symbolic.readoutNodes.map (value included ρ p.nodes),
      symbolic.residualNodes.map (value included ρ p.nodes)⟩

/-- The propagator has the gadgets of a tracker, and the values of its expressions solve the part of
the frame equations that depends on corrections. -/
structure Represents (tracker : PauliFrameTracker) : Prop where
  graph : Graph p.nodes
  owner : ∀ (i : ℕ) component, p.nodes[i]? = some (.basis component) → component.gid ∈ p.gadgets
  mem : ∀ gid, gid ∈ p.gadgets ↔ gid ∈ tracker.gadgets
  fits : ∀ {gid symbolic gadget}, p.gadgets.lookup gid = some symbolic →
    tracker.gadgets.lookup gid = some gadget → symbolic.Matches p.nodes gadget
  solves : ∀ included ρ gid, tracker.cutLinearEquation included ρ (p.frameOf included ρ) gid =
    p.frameOf included ρ gid

variable {p}
variable {tracker : PauliFrameTracker} {order : List ℕ}

theorem represents_new : new.Represents .new where
  graph := by
    refine ⟨rfl, fun i g terms hi => ?_, fun i j component hi => ?_⟩
    · rcases i with _ | i <;> cases hi
    · rcases i with _ | i <;> cases hi
  owner i component hi := by
    rcases i with _ | i <;> cases hi
  mem _ := Iff.rfl
  fits hsymbolic := by
    cases hsymbolic
  solves _ _ _ := rfl

section Represents

variable (h : p.Represents tracker)

include h

theorem Represents.exists_lookup {gid : ℕ} {gadget : PauliFrameGadget}
    (hgadget : tracker.gadgets.lookup gid = some gadget) :
    ∃ symbolic, p.gadgets.lookup gid = some symbolic ∧ symbolic.Matches p.nodes gadget := by
  have hmem := (h.mem gid).mpr
    (lookup_isSome.mp (Option.isSome_iff_exists.mpr ⟨gadget, hgadget⟩))
  obtain ⟨symbolic, hsymbolic⟩ := Option.isSome_iff_exists.mp (lookup_isSome.mpr hmem)
  exact ⟨symbolic, hsymbolic, h.fits hsymbolic hgadget⟩

theorem Represents.exists_slices (hwell : tracker.WellFormed order) (connectors : List Connector)
    (hinput : ∀ c ∈ connectors, ∃ peer, tracker.gadgets.lookup c.gid = some peer ∧
      c.port < peer.outputs.length) : ∃ slices : List (List ℕ), (connectors.mapM fun c => do
        let peer ← p.gadgets.lookup c.gid
        peer.residualSlice c.port) = some slices ∧
      (∀ node ∈ slices.flatten, node < p.nodes.length) ∧
      slices.flatten.length = (connectors.map tracker.connectionWidth).sum ∧
      ∀ included ρ, connectors.mapM (tracker.inputSlice (p.frameOf included ρ)) =
        some (slices.map fun slice => slice.map (value included ρ p.nodes)) := by
  induction connectors with
  | nil => exact ⟨[], rfl, by simp, rfl, fun _ _ => rfl⟩
  | cons c connectors ih =>
    obtain ⟨slices, hslices, hlt, hlength, hvalues⟩ :=
      ih fun c' hc' => hinput c' (mem_cons_of_mem _ hc')
    obtain ⟨peer, hpeer, hport⟩ := hinput c mem_cons_self
    obtain ⟨symbolic, hsymbolic, hmatches⟩ := h.exists_lookup hpeer
    obtain ⟨slice, hslice, hlt', hlength', hvalue⟩ :=
      hmatches.exists_residualSlice_eq (hwell.shaped hpeer) hport
    refine ⟨slice :: slices, ?_, ?_, ?_, fun included ρ => ?_⟩
    · rw [mapM_cons, hslices, hsymbolic]
      simp only [Option.bind_eq_bind, Option.bind_some, hslice]
      rfl
    · intro node hnode
      rw [flatten_cons, mem_append] at hnode
      exact hnode.elim (hlt' node) (hlt node)
    · rw [flatten_cons, length_append, hlength, hlength', map_cons, sum_cons,
        PauliFrameTracker.connectionWidth, hpeer, Option.elim_some]
    · have hfirst : tracker.inputSlice (p.frameOf included ρ) c =
          some (slice.map (value included ρ p.nodes)) := by
        rw [PauliFrameTracker.inputSlice, hpeer, frameOf, hsymbolic, ← hvalue]
        rfl
      rw [mapM_cons, hvalues, hfirst]
      rfl

theorem Represents.exists_remoteInputs (remoteRefs : List RemoteReadout)
    (hremote : ∀ r ∈ remoteRefs, ∃ remote, tracker.gadgets.lookup r.gid = some remote ∧
      r.readoutIndex < remote.numReadouts) : ∃ inputs : List ℕ, (remoteRefs.mapM fun remote => do
        let remoteGadget ← p.gadgets.lookup remote.gid
        remoteGadget.readoutNodes[remote.readoutIndex]?) = some inputs ∧
      (∀ node ∈ inputs, node < p.nodes.length) ∧ inputs.length = remoteRefs.length ∧
      ∀ included ρ, remoteRefs.mapM (PauliFrameTracker.remoteValue (p.frameOf included ρ)) =
        some (inputs.map (value included ρ p.nodes)) := by
  induction remoteRefs with
  | nil => exact ⟨[], rfl, by simp, rfl, fun _ _ => rfl⟩
  | cons r remoteRefs ih =>
    obtain ⟨inputs, hinputs, hlt, hlength, hvalues⟩ :=
      ih fun r' hr' => hremote r' (mem_cons_of_mem _ hr')
    obtain ⟨remote, hlookup, hindex⟩ := hremote r mem_cons_self
    obtain ⟨symbolic, hsymbolic, hmatches⟩ := h.exists_lookup hlookup
    have hindex' : r.readoutIndex < symbolic.readoutNodes.length := by
      rw [hmatches.length_readouts]
      exact hindex
    have hnode := getElem?_eq_getElem hindex'
    refine ⟨symbolic.readoutNodes[r.readoutIndex] :: inputs, ?_, ?_, congrArg (· + 1) hlength,
      fun included ρ => ?_⟩
    · rw [mapM_cons, hinputs, hsymbolic]
      simp only [Option.bind_eq_bind, Option.bind_some, hnode]
      rfl
    · intro node hmem
      rcases mem_cons.mp hmem with rfl | hmem
      · exact hmatches.readouts_lt _ (getElem_mem _)
      · exact hlt node hmem
    · have hfirst : PauliFrameTracker.remoteValue (p.frameOf included ρ) r =
          some (value included ρ p.nodes symbolic.readoutNodes[r.readoutIndex]) := by
        rw [PauliFrameTracker.remoteValue, frameOf, hsymbolic]
        simp [hindex']
      rw [mapM_cons, hvalues, hfirst]
      rfl

end Represents

theorem map_range_and (b : Bool) (n : ℕ) (f : ℕ → Bool) : ((List.range n).map fun i => b && f i) =
      if b = true then (List.range n).map f else List.replicate n false := by
  cases b with
  | true => simp
  | false => simp

section Graph

variable {nodes : List SymbolicNode} (h : Graph nodes)

include h

theorem Graph.map_value_concat_zero (included : ℕ → Bool) (ρ : CorrectionBasis → Bool)
    (inputNodes : List ℕ) : (inputNodes ++ [0]).map (value included ρ nodes) =
      inputNodes.map (value included ρ nodes) ++ [false] := by
  rw [map_append, map_singleton, h.value_zero]

theorem Graph.getD_lt {l : List ℕ} (hl : ∀ node ∈ l, node < nodes.length) (i : ℕ) :
    l.getD i 0 < nodes.length := by
  rcases Nat.lt_or_ge i l.length with hi | hi
  · rw [getD_eq_getElem _ _ hi]
    exact hl _ (getElem_mem hi)
  · rw [getD_eq_default _ _ hi]
    exact h.length_pos

omit h in
theorem value_getD_of_map_eq {built : List ℕ} {included : ℕ → Bool} {ρ : CorrectionBasis → Bool}
    {n : ℕ} {f : ℕ → Bool} (hbuilt : built.map (value included ρ nodes) = (List.range n).map f)
    {i : ℕ} (hi : i < n) : value included ρ nodes (built.getD i 0) = f i := by
  have hlength : built.length = n := by simpa using congrArg List.length hbuilt
  rw [← getD_map_value (value included ρ nodes) (hlength ▸ hi), hbuilt]
  simp [hi]

theorem Graph.exists_readouts {gid : ℕ} {gadget : PauliFrameGadget} {inputNodes : List ℕ}
    (hrows : gadget.readoutPropagation.rowCount = gadget.numReadouts)
    (hcolumns : gadget.readoutPropagation.columnCount = inputNodes.length + 1)
    (hinputs : ∀ node ∈ inputNodes, node < nodes.length)
    (hfresh : ∀ (i : ℕ) component, nodes[i]? = some (.basis component) → component.gid ≠ gid) :
    ∃ built readouts,
      applyMatrix nodes gid gadget.readoutPropagation (inputNodes ++ [0]) = some built ∧
      xorBases gid (.readout gid) (fun i => [built.2.getD i 0]) built.1
        (List.range built.2.length) = readouts ∧
      Grows (fun b => ∃ i, b = .readout gid i) nodes readouts.1 ∧
      (∀ node ∈ readouts.2, node < readouts.1.length) ∧ readouts.2.length = gadget.numReadouts ∧
      ∀ included ρ, readouts.2.map (value included ρ readouts.1) = if included gid = true then
          gadget.linearReadouts gid ρ (inputNodes.map (value included ρ nodes))
        else List.replicate gadget.numReadouts false := by
  have hinputs' : ∀ node ∈ inputNodes ++ [0], node < nodes.length := by
    intro node hnode
    rcases mem_append.mp hnode with hold | hzero
    · exact hinputs node hold
    · rw [mem_singleton.mp hzero]
      exact h.length_pos
  obtain ⟨built, hbuilt, hgrows, hlt, hlength, hvalue⟩ :=
    h.applyMatrix_spec gid (hcolumns.trans (by simp)) hinputs'
  have hfresh' : ∀ i ∈ List.range built.2.length, ∀ j : ℕ,
      built.1[j]? ≠ some (.basis (.readout gid i)) := by
    intro i _ j hj
    rcases hgrows.basis j _ hj with hold | hfalse
    · exact hfresh j _ hold rfl
    · exact hfalse
  have hterms : ∀ i ∈ List.range built.2.length, ∀ t ∈ [built.2.getD i 0],
      t < built.1.length := by
    intro i _ t ht
    rw [mem_singleton.mp ht]
    exact hgrows.graph.getD_lt hlt i
  have hinjective : Function.Injective (CorrectionBasis.readout gid) :=
    fun i j hij => (CorrectionBasis.readout.inj hij).2
  obtain ⟨hgrows', hlt', hlength', hvalue'⟩ := hgrows.graph.xorBases_spec gid hinjective
    (fun _ => rfl) nodup_range hfresh' hterms
  refine ⟨built, _, hbuilt, rfl, ?_, hlt', ?_, fun included ρ => ?_⟩
  · refine (hgrows.mono fun _ hfalse => hfalse.elim).trans (hgrows'.mono ?_)
    rintro b ⟨i, -, hb⟩
    exact ⟨i, hb⟩
  · rw [hlength', length_range, hlength, hrows]
  · rw [hvalue', map_range_and, hlength, hrows]
    split_ifs with hincluded
    · have hentries := hvalue included ρ hincluded
      rw [h.map_value_concat_zero, hrows] at hentries
      refine map_congr_left fun i hi => ?_
      rw [map_singleton, xorAll_cons, xorAll_nil, Bool.xor_false,
        value_getD_of_map_eq hentries (mem_range.mp hi)]
    · rfl

omit h in
theorem Graph.exists_residual (gid : ℕ) (gadget : PauliFrameGadget) {nodes' : List SymbolicNode}
    (hgrows : Grows (fun _ => False) nodes nodes') {correction logical remote : List ℕ}
    (hcorrection : ∀ node ∈ correction, node < nodes'.length)
    (hlogical : ∀ node ∈ logical, node < nodes'.length)
    (hremote : ∀ node ∈ remote, node < nodes'.length)
    (hfresh : ∀ (i j : ℕ), nodes[i]? ≠ some (.basis (.residual gid j))) : ∃ residual,
      xorBases gid (.residual gid)
        (fun i => [correction.getD i 0, logical.getD i 0, remote.getD i 0]) nodes'
        (List.range gadget.numOutputObservables) = residual ∧
      Grows (fun b => ∃ i, b = .residual gid i) nodes residual.1 ∧
      (∀ node ∈ residual.2, node < residual.1.length) ∧
      residual.2.length = gadget.numOutputObservables ∧
      ∀ included ρ, residual.2.map (value included ρ residual.1) = if included gid = true then
          (List.range gadget.numOutputObservables).map fun i =>
            value included ρ nodes' (correction.getD i 0) ^^
              value included ρ nodes' (logical.getD i 0) ^^
              value included ρ nodes' (remote.getD i 0) ^^ ρ (.residual gid i)
        else List.replicate gadget.numOutputObservables false := by
  have hfresh' : ∀ i ∈ List.range gadget.numOutputObservables, ∀ j : ℕ,
      nodes'[j]? ≠ some (.basis (.residual gid i)) := by
    intro i _ j hj
    rcases hgrows.basis j _ hj with hold | hfalse
    · exact hfresh j i hold
    · exact hfalse
  have hterms : ∀ i ∈ List.range gadget.numOutputObservables,
      ∀ t ∈ [correction.getD i 0, logical.getD i 0, remote.getD i 0], t < nodes'.length := by
    intro i _ t ht
    simp only [mem_cons, not_mem_nil, or_false] at ht
    rcases ht with rfl | rfl | rfl
    · exact hgrows.graph.getD_lt hcorrection i
    · exact hgrows.graph.getD_lt hlogical i
    · exact hgrows.graph.getD_lt hremote i
  have hinjective : Function.Injective (CorrectionBasis.residual gid) :=
    fun i j hij => (CorrectionBasis.residual.inj hij).2
  obtain ⟨hgrows', hlt, hlength, hvalue⟩ := hgrows.graph.xorBases_spec gid hinjective
    (fun _ => rfl) nodup_range hfresh' hterms
  refine ⟨_, rfl, ?_, hlt, hlength.trans length_range, fun included ρ => ?_⟩
  · refine (hgrows.mono fun _ hfalse => hfalse.elim).trans (hgrows'.mono ?_)
    rintro b ⟨i, -, hb⟩
    exact ⟨i, hb⟩
  · rw [hvalue, map_range_and]
    split_ifs with hincluded
    · refine map_congr_left fun i _ => ?_
      simp
    · rfl

end Graph

section AddGadget

variable (h : p.Represents tracker)

include h

theorem Represents.exists_remoteNodes (gid : ℕ) (gadget : PauliFrameGadget)
    {fresh : CorrectionBasis → Prop} {nodes : List SymbolicNode}
    (hgrows : Grows fresh p.nodes nodes)
    (hremote : ∀ r ∈ gadget.remoteRefs, ∃ remote, tracker.gadgets.lookup r.gid = some remote ∧
      r.readoutIndex < remote.numReadouts) (hshape : ∀ remoteRefs correctionMatrix,
      gadget.remoteConditionalCorrection = some (remoteRefs, correctionMatrix) →
        correctionMatrix.rowCount = gadget.numOutputObservables ∧
          correctionMatrix.columnCount = remoteRefs.length) :
    ∃ built, p.remoteNodes nodes gid gadget = some built ∧
      Grows (fun _ => False) nodes built.1 ∧ (∀ node ∈ built.2, node < built.1.length) ∧
      built.2.length = gadget.numOutputObservables ∧ ∀ included ρ, ∃ remote,
        gadget.remoteRefs.mapM (PauliFrameTracker.remoteValue (p.frameOf included ρ)) =
          some remote ∧ (included gid = true → built.2.map (value included ρ built.1) =
          (List.range gadget.numOutputObservables).map (gadget.remoteCorrection remote)) := by
  have hgraph := hgrows.graph
  cases hcc : gadget.remoteConditionalCorrection with
  | none =>
    have hnil : gadget.remoteRefs = [] := by rw [PauliFrameGadget.remoteRefs, hcc]
    refine ⟨(nodes, List.replicate gadget.numOutputObservables 0), ?_, hgraph.grows, ?_,
      length_replicate, fun included ρ => ⟨[], ?_, fun _ => ?_⟩⟩
    · rw [remoteNodes, hcc]
    · intro node hnode
      rw [eq_of_mem_replicate hnode]
      exact hgraph.length_pos
    · rw [hnil]
      rfl
    · have hzero : gadget.remoteCorrection [] = fun _ => false := by
        funext i
        rw [remoteCorrection, hcc]
      rw [map_replicate, hgraph.value_zero, hzero, map_const', length_range]
  | some pair =>
    obtain ⟨remoteRefs, correctionMatrix⟩ := pair
    obtain ⟨hrows, hcolumns⟩ := hshape _ _ hcc
    have hrefs : gadget.remoteRefs = remoteRefs := by rw [PauliFrameGadget.remoteRefs, hcc]
    rw [hrefs] at hremote ⊢
    obtain ⟨inputs, hinputs, hlt, hlength, hvalues⟩ := h.exists_remoteInputs remoteRefs hremote
    have hlt' : ∀ node ∈ inputs, node < nodes.length :=
      fun node hnode => (hlt node hnode).trans_le hgrows.length_le
    obtain ⟨built, hbuilt, hgrows', hltBuilt, hlengthBuilt, hvalue⟩ :=
      hgraph.applyMatrix_spec gid (hcolumns.trans hlength.symm) hlt'
    refine ⟨built, ?_, hgrows', hltBuilt, hlengthBuilt.trans hrows, fun included ρ =>
      ⟨_, hvalues included ρ, fun hincluded => ?_⟩⟩
    · rw [remoteNodes, hcc]
      exact Option.bind_eq_some_iff.mpr ⟨inputs, hinputs, hbuilt⟩
    · have hentry : gadget.remoteCorrection (inputs.map (value included ρ p.nodes)) =
          correctionMatrix.entry (inputs.map (value included ρ p.nodes)) := by
        funext i
        rw [remoteCorrection, hcc]
      have hsame : inputs.map (value included ρ nodes) = inputs.map (value included ρ p.nodes) :=
        map_congr_left fun node hnode => hgrows.value_eq included ρ (hlt node hnode)
      rw [hvalue included ρ hincluded, hrows, hsame, hentry]

variable {gid : ℕ} {gadget : PauliFrameGadget}

/-- The expressions of a new gadget solve the linear part of its frame equation. -/
theorem Represents.exists_insert (hwell : tracker.WellFormed order) (hgid : gid ∉ tracker.gadgets)
    (hinput : ∀ c ∈ gadget.inputs, ∃ peer, tracker.gadgets.lookup c.gid = some peer ∧
      c.port < peer.outputs.length)
    (hremote : ∀ r ∈ gadget.remoteRefs, ∃ remote, tracker.gadgets.lookup r.gid = some remote ∧
      r.readoutIndex < remote.numReadouts)
    (hwidth : (gadget.inputs.map tracker.connectionWidth).sum + 1 =
      gadget.correctionPropagation.columnCount) (hshaped : gadget.Shaped)
    (hsorted : gadget.outputBias.Pairwise (· ≤ ·)) :
    ∃ p' symbolic, p.addGadget gid gadget = some p' ∧ p'.gadgets = p.gadgets.insert gid symbolic ∧
      Grows (fun b => b.gid = gid) p.nodes p'.nodes ∧ symbolic.Matches p'.nodes gadget ∧
      ∀ included ρ, ∃ inputs remote,
        gadget.inputs.mapM (tracker.inputSlice (p.frameOf included ρ)) = some inputs ∧
        gadget.remoteRefs.mapM (PauliFrameTracker.remoteValue (p.frameOf included ρ)) =
          some remote ∧ PauliFrame.mk (symbolic.readoutNodes.map (value included ρ p'.nodes))
            (symbolic.residualNodes.map (value included ρ p'.nodes)) =
          if included gid = true then gadget.linearFrame gid ρ inputs.flatten remote
          else gadget.zeroFrame := by
  have hnew : gid ∉ p.gadgets := fun hmem => hgid ((h.mem gid).mp hmem)
  have howner : ∀ (i : ℕ) component, p.nodes[i]? = some (.basis component) →
      component.gid ≠ gid := by
    rintro i component hi rfl
    exact hnew (h.owner i component hi)
  obtain ⟨slices, hslices, hslicesLt, hslicesLength, hslicesValue⟩ :=
    h.exists_slices hwell gadget.inputs hinput
  have hcolumns : gadget.correctionPropagation.columnCount = slices.flatten.length + 1 := by
    rw [hslicesLength, hwidth]
  obtain ⟨built, readouts, hbuilt, hreadouts, hgrows₁, hreadoutsLt, hreadoutsLength,
    hreadoutsValue⟩ := h.graph.exists_readouts hshaped.propagation_rows
      (hshaped.propagation_columns.trans hcolumns) hslicesLt howner
  have hinputs : ∀ node ∈ slices.flatten ++ [0], node < readouts.1.length := by
    intro node hnode
    rcases mem_append.mp hnode with hold | hzero
    · exact (hslicesLt node hold).trans_le hgrows₁.length_le
    · rw [mem_singleton.mp hzero]
      exact hgrows₁.graph.length_pos
  obtain ⟨correction, hcorrection, hgrows₂, hcorrectionLt, -, hcorrectionValue⟩ :=
    hgrows₁.graph.applyMatrix_spec gid (hcolumns.trans (by simp)) hinputs
  have hreadoutsLt' : ∀ node ∈ readouts.2, node < correction.1.length :=
    fun node hnode => (hreadoutsLt node hnode).trans_le hgrows₂.length_le
  obtain ⟨logical, hlogical, hgrows₃, hlogicalLt, hlogicalLength, hlogicalValue⟩ :=
    hgrows₂.graph.applyMatrix_spec gid hreadoutsLength.symm hreadoutsLt'
  have hgrows₁₃ := (hgrows₁.trans (hgrows₂.mono fun _ hfalse => hfalse.elim)).trans
    (hgrows₃.mono fun _ hfalse => hfalse.elim)
  obtain ⟨remoteBuilt, hremoteBuilt, hgrows₄, hremoteLt, hremoteLength, hremoteValue⟩ :=
    h.exists_remoteNodes gid gadget hgrows₁₃ hremote hshaped.remote
  have hgrows₂₄ := (hgrows₂.trans hgrows₃).trans hgrows₄
  have hgrows₃₄ := hgrows₃.trans hgrows₄
  have hfresh : ∀ i j : ℕ, readouts.1[i]? ≠ some (.basis (.residual gid j)) := by
    intro i j hi
    rcases hgrows₁.basis i _ hi with hold | ⟨k, hk⟩
    · exact howner i _ hold rfl
    · cases hk
  obtain ⟨residual, hresidual, hgrows₅, hresidualLt, hresidualLength, hresidualValue⟩ :=
    Graph.exists_residual gid gadget hgrows₂₄
      (fun node hnode => (hcorrectionLt node hnode).trans_le hgrows₃₄.length_le)
      (fun node hnode => (hlogicalLt node hnode).trans_le hgrows₄.length_le) hremoteLt hfresh
  have hgrows : Grows (fun b => b.gid = gid) p.nodes residual.1 := by
    refine (hgrows₁.mono ?_).trans (hgrows₅.mono ?_)
    · rintro b ⟨i, rfl⟩
      rfl
    · rintro b ⟨i, rfl⟩
      rfl
  have henough : gadget.numOutputObservables ≤ logical.2.length ∧
      gadget.numOutputObservables ≤ remoteBuilt.2.length := by
    rw [hlogicalLength, hshaped.logical_rows, hremoteLength]
    exact ⟨le_rfl, le_rfl⟩
  refine ⟨⟨residual.1, p.gadgets.insert gid ⟨readouts.2, residual.2, gadget.outputBias⟩⟩,
    ⟨readouts.2, residual.2, gadget.outputBias⟩, ?_, rfl, hgrows, ?_, fun included ρ => ?_⟩
  · subst hreadouts
    subst hresidual
    exact Option.bind_eq_some_iff.mpr ⟨(), (Option.guard_eq_some' ()).mpr hnew,
      Option.bind_eq_some_iff.mpr ⟨slices, hslices,
      Option.bind_eq_some_iff.mpr ⟨built, hbuilt,
      Option.bind_eq_some_iff.mpr ⟨correction, hcorrection,
      Option.bind_eq_some_iff.mpr ⟨logical, hlogical,
      Option.bind_eq_some_iff.mpr ⟨remoteBuilt, hremoteBuilt,
      Option.bind_eq_some_iff.mpr ⟨(), (Option.guard_eq_some' ()).mpr henough, rfl⟩⟩⟩⟩⟩⟩⟩
  · exact {
      bias := rfl
      bias_sorted := hsorted
      length_readouts := hreadoutsLength
      length_residual := hresidualLength
      readouts_lt := fun node hnode => (hreadoutsLt node hnode).trans_le hgrows₅.length_le
      residual_lt := hresidualLt }
  · obtain ⟨remote, hremoteInputs, hremoteEntries⟩ := hremoteValue included ρ
    refine ⟨_, remote, hslicesValue included ρ, hremoteInputs, ?_⟩
    have hflatten : (slices.map fun slice => slice.map (value included ρ p.nodes)).flatten =
        slices.flatten.map (value included ρ p.nodes) :=
      map_flatten.symm
    have hreadoutsStay : readouts.2.map (value included ρ residual.1) =
        readouts.2.map (value included ρ readouts.1) :=
      map_congr_left fun node hnode => hgrows₅.value_eq included ρ (hreadoutsLt node hnode)
    rw [hflatten, hreadoutsStay, hreadoutsValue, hresidualValue]
    split_ifs with hincluded
    · have hcorrectionEntries := hcorrectionValue included ρ hincluded
      have hinputsStay : slices.flatten.map (value included ρ readouts.1) =
          slices.flatten.map (value included ρ p.nodes) :=
        map_congr_left fun node hnode => hgrows₁.value_eq included ρ (hslicesLt node hnode)
      rw [hgrows₁.graph.map_value_concat_zero, hinputsStay] at hcorrectionEntries
      have hlogicalEntries := hlogicalValue included ρ hincluded
      have hreadoutsStay' : readouts.2.map (value included ρ correction.1) =
          readouts.2.map (value included ρ readouts.1) :=
        map_congr_left fun node hnode => hgrows₂.value_eq included ρ (hreadoutsLt node hnode)
      rw [hreadoutsStay', hreadoutsValue, if_pos hincluded, hshaped.logical_rows]
        at hlogicalEntries
      refine congrArg (PauliFrame.mk _) (map_congr_left fun i hi => ?_)
      rw [mem_range] at hi
      rw [hgrows₃₄.value_eq included ρ (hgrows₂.graph.getD_lt hcorrectionLt i),
        hgrows₄.value_eq included ρ (hgrows₃.graph.getD_lt hlogicalLt i),
        value_getD_of_map_eq hcorrectionEntries hi, value_getD_of_map_eq hlogicalEntries hi,
        value_getD_of_map_eq (hremoteEntries hincluded) hi]
    · rfl

omit h in
theorem SymbolicGadget.Matches.mono {nodes nodes' : List SymbolicNode}
    (hmatches : symbolic.Matches nodes gadget) (hle : nodes.length ≤ nodes'.length) :
    symbolic.Matches nodes' gadget :=
  { hmatches with
    readouts_lt := fun node hnode => (hmatches.readouts_lt node hnode).trans_le hle
    residual_lt := fun node hnode => (hmatches.residual_lt node hnode).trans_le hle }

omit h in
theorem SymbolicGadget.Matches.of_kernel_eq {nodes : List SymbolicNode}
    (hmatches : symbolic.Matches nodes gadget) (hsame : gadget.kernel = gadget'.kernel) :
    symbolic.Matches nodes gadget' := by
  have hbias : gadget.outputBias = gadget'.outputBias :=
    PauliFrameGadget.eq_of_kernel_eq (fun _ => rfl) hsame
  have hreadouts : gadget.numReadouts = gadget'.numReadouts :=
    PauliFrameGadget.eq_of_kernel_eq (fun _ => rfl) hsame
  have hresidual : gadget.numOutputObservables = gadget'.numOutputObservables :=
    PauliFrameGadget.eq_of_kernel_eq (fun _ => rfl) hsame
  exact {
    bias := hmatches.bias.trans hbias
    bias_sorted := hbias ▸ hmatches.bias_sorted
    length_readouts := hmatches.length_readouts.trans hreadouts
    length_residual := hmatches.length_residual.trans hresidual
    readouts_lt := hmatches.readouts_lt
    residual_lt := hmatches.residual_lt }

theorem Represents.of_sameKernel {tracker' : PauliFrameTracker}
    (hsame : PauliFrameTracker.SameKernel tracker tracker') : p.Represents tracker' where
  graph := h.graph
  owner := h.owner
  mem u := (h.mem u).trans (hsame.mem_iff u).symm
  fits hsymbolic hgadget' := by
    obtain ⟨gadget, hgadget, hkernel⟩ := hsame.exists_lookup hgadget'
    exact SymbolicGadget.Matches.of_kernel_eq (h.fits hsymbolic hgadget) hkernel
  solves included ρ u := by
    rw [hsame.cutLinearEquation_eq]
    exact h.solves included ρ u

theorem Represents.frameOf_eq_of_ne {fresh : CorrectionBasis → Prop}
    {p' : PauliFrameSymbolicPropagator}
    (hgadgets : p'.gadgets = p.gadgets.insert gid symbolic) (hgrows : Grows fresh p.nodes p'.nodes)
    (included : ℕ → Bool) (ρ : CorrectionBasis → Bool) {u : ℕ} (hu : u ≠ gid) :
    p'.frameOf included ρ u = p.frameOf included ρ u := by
  rw [frameOf, frameOf, hgadgets, lookup_insert_ne hu]
  cases hold : p.gadgets.lookup u with
  | none => rfl
  | some old =>
    have hmem := (h.mem u).mp
      (lookup_isSome.mp (Option.isSome_iff_exists.mpr ⟨old, hold⟩))
    obtain ⟨oldGadget, holdGadget⟩ :=
      Option.isSome_iff_exists.mp (lookup_isSome.mpr hmem)
    have hmatches := h.fits hold holdGadget
    have hstay : ∀ l : List ℕ, (∀ node ∈ l, node < p.nodes.length) →
        l.map (value included ρ p'.nodes) = l.map (value included ρ p.nodes) :=
      fun l hl => map_congr_left fun node hnode => hgrows.value_eq included ρ (hl node hnode)
    rw [Option.map_some, Option.map_some, hstay _ hmatches.readouts_lt,
      hstay _ hmatches.residual_lt]

omit h in
theorem linearEquation_insert (ρ : CorrectionBasis → Bool) {F F' : ℕ → Option PauliFrame}
    (hF : ∀ u, u ≠ gid → F' u = F u) {u : ℕ} {old : PauliFrameGadget}
    (hold : (tracker.gadgets.insert gid gadget).lookup u = some old)
    (hparents : ∀ w ∈ old.parents, w ≠ gid) :
    PauliFrameTracker.linearEquation ⟨tracker.gadgets.insert gid gadget⟩ ρ F' u = (do
      let inputs ← old.inputs.mapM (tracker.inputSlice F)
      let remote ← old.remoteRefs.mapM (PauliFrameTracker.remoteValue F)
      some (old.linearFrame u ρ inputs.flatten remote)) := by
  have hinputs : old.inputs.mapM
      (PauliFrameTracker.inputSlice ⟨tracker.gadgets.insert gid gadget⟩ F') =
        old.inputs.mapM (tracker.inputSlice F) := by
    refine mapM_congr fun c hc => ?_
    have hne := hparents c.gid (mem_append_left _ (mem_map_of_mem hc))
    rw [PauliFrameTracker.inputSlice, PauliFrameTracker.inputSlice, lookup_insert_ne hne, hF _ hne]
  have hremote : old.remoteRefs.mapM (PauliFrameTracker.remoteValue F') =
      old.remoteRefs.mapM (PauliFrameTracker.remoteValue F) := by
    refine mapM_congr fun r hr => ?_
    have hne := hparents r.gid (mem_append_right _ (mem_map_of_mem hr))
    rw [PauliFrameTracker.remoteValue, PauliFrameTracker.remoteValue, hF _ hne]
  rw [PauliFrameTracker.linearEquation, hold, Option.bind_eq_bind, Option.bind_some, hinputs,
    hremote]

theorem Represents.exists_addGadget_eq {tracker' : PauliFrameTracker}
    (hwell : tracker.WellFormed order) (hgid : gid ∉ tracker.gadgets) {connectors : List Connector}
    (hbuilt : PauliFrameTracker.Built connectors gadget) (hfits : tracker.Fits gadget)
    (hattached : PauliFrameTracker.Attached gid gadget.parents
      ⟨tracker.gadgets.insert gid gadget⟩ tracker')
    (hgadget' : tracker'.gadgets.lookup gid = some gadget') :
    ∃ p', p.addGadget gid gadget' = some p' ∧ p'.Represents tracker' := by
  have hinput : ∀ c ∈ gadget.inputs, ∃ peer, tracker.gadgets.lookup c.gid = some peer ∧
      c.port < peer.outputs.length := by
    intro c hc
    obtain ⟨peer, hpeer, hport⟩ := hfits.free c hc
    exact ⟨peer, hpeer, (List.getElem?_eq_some_iff.mp hport).1⟩
  obtain ⟨p', symbolic, hadd, hgadgets, hgrows, hmatches, hframe⟩ := h.exists_insert hwell hgid
    hinput hfits.remote hfits.width (hfits.shaped hbuilt) hbuilt.bias_sorted
  have hsame : gadget'.core = gadget.core := by
    rcases hattached.exists_lookup hgadget' with ⟨-, hsame⟩ | ⟨hne, -⟩
    · exact hsame.symm
    · exact absurd rfl hne
  have hadd' : p.addGadget gid gadget' = some p' :=
    (eq_of_core_eq (f := p.addGadget gid) (fun _ => rfl) hsame).trans hadd
  have hstay := fun included ρ u (hu : u ≠ gid) =>
    h.frameOf_eq_of_ne hgadgets hgrows included ρ hu
  have hne : ∀ {u : ℕ}, u ∈ tracker.gadgets → u ≠ gid := by
    rintro u hu rfl
    exact hgid hu
  have hadded : p'.Represents ⟨tracker.gadgets.insert gid gadget⟩ := by
    refine ⟨hgrows.graph, fun i component hi => ?_, fun u => ?_, ?_, fun included ρ u => ?_⟩
    · rw [hgadgets, mem_insert]
      rcases hgrows.basis i component hi with hold | hnew
      · exact .inr (h.owner i component hold)
      · exact .inl hnew
    · rw [hgadgets, mem_insert, mem_insert, h.mem]
    · intro u symbolic' old hsymbolic' hold
      change (tracker.gadgets.insert gid gadget).lookup u = some old at hold
      rw [hgadgets] at hsymbolic'
      rcases eq_or_ne u gid with rfl | hu
      · rw [lookup_insert] at hsymbolic' hold
        obtain rfl := Option.some_inj.mp hsymbolic'
        obtain rfl := Option.some_inj.mp hold
        exact hmatches
      · rw [lookup_insert_ne hu] at hsymbolic' hold
        exact SymbolicGadget.Matches.mono (h.fits hsymbolic' hold) hgrows.length_le
    · rcases eq_or_ne u gid with rfl | hu
      · obtain ⟨inputs, remote, hinputs, hremote, hvalue⟩ := hframe included ρ
        have hparents : ∀ w ∈ gadget.parents, w ≠ u :=
          fun w hw => hne (hfits.mem_of_mem_parents hw)
        have hlookup : (tracker.gadgets.insert u gadget).lookup u = some gadget :=
          lookup_insert _
        rw [PauliFrameTracker.cutLinearEquation, hlookup, Option.bind_eq_bind, Option.bind_some,
          linearEquation_insert ρ (hstay included ρ) hlookup hparents, hinputs, hremote]
        rw [frameOf, hgadgets, lookup_insert, Option.map_some, hvalue]
        cases included u <;> rfl
      · rw [hstay included ρ u hu, ← h.solves included ρ u, PauliFrameTracker.cutLinearEquation,
          PauliFrameTracker.cutLinearEquation, lookup_insert_ne hu]
        cases hold : tracker.gadgets.lookup u with
        | none => rfl
        | some old =>
          have hparents : ∀ w ∈ old.parents, w ≠ gid := by
            intro w hw
            rw [PauliFrameGadget.parents, mem_append, mem_map, mem_map] at hw
            rcases hw with ⟨c, hc, rfl⟩ | ⟨r, hr, rfl⟩
            · obtain ⟨peer, hpeer, -⟩ := hwell.input hold c hc
              exact hne (lookup_isSome.mp (Option.isSome_iff_exists.mpr ⟨peer, hpeer⟩))
            · obtain ⟨remote, hremote, -⟩ := hwell.remote hold r hr
              exact hne (lookup_isSome.mp (Option.isSome_iff_exists.mpr ⟨remote, hremote⟩))
          have hlookup : (tracker.gadgets.insert gid gadget).lookup u = some old :=
            (lookup_insert_ne hu).trans hold
          simp only [Option.bind_eq_bind, Option.bind_some]
          rw [linearEquation_insert ρ (hstay included ρ) hlookup hparents,
            PauliFrameTracker.linearEquation, hold]
          rfl
  exact ⟨p', hadd', hadded.of_sameKernel hattached.core.sameKernel⟩

end AddGadget

end PauliFrameSymbolicPropagator

end QdkEc
