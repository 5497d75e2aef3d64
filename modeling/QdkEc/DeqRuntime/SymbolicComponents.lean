import QdkEc.DeqRuntime.SymbolicRuns

/-!
# Components and logical flips

This module concludes that the components of a target are the correction bits that
change it: in every run of the tracker, with all gadgets or with the outputs of
inactive gadgets held at zero.  The logical flips of several correction bits are the
targets that an odd number of them changes.
-/

namespace QdkEc

open Option PauliFrameTracker List CorrectionBasis

namespace PauliFrameTracker

/-- A readout or an output observable of a gadget of the tracker. -/
def HasBit (tracker : PauliFrameTracker) : CorrectionBasis → Prop
  | .readout gid index => ∃ gadget, tracker.gadgets.lookup gid = some gadget ∧
      index < gadget.numReadouts
  | .residual gid index => ∃ gadget, tracker.gadgets.lookup gid = some gadget ∧
      index < gadget.numOutputObservables

end PauliFrameTracker

namespace PauliFrameSymbolicPropagator

/-- Add a gadget to the propagator after a call that added it to the tracker. -/
def follow (p : PauliFrameSymbolicPropagator) (tracker : PauliFrameTracker) :
    TrackerCall → Option PauliFrameSymbolicPropagator
  | .addGadget gid _ _ _ _ => do
      let gadget ← tracker.gadgets.lookup gid
      p.addGadget gid gadget
  | _ => some p

/-- A sequence of calls of the tracker, followed by the propagator. -/
def runBoth :
    PauliFrameTracker × PauliFrameSymbolicPropagator → List TrackerCall →
      Option (PauliFrameTracker × PauliFrameSymbolicPropagator)
  | both, [] => some both
  | both, call :: calls => do
      let next ← both.1.step call
      let p ← both.2.follow next.1 call
      runBoth (next.1, p) calls

variable {p : PauliFrameSymbolicPropagator} {tracker tracker' : PauliFrameTracker}

variable {target : CorrectionBasis}

theorem Represents.exists_targetNode (h : p.Represents tracker) (htarget : tracker.HasBit target) :
    ∃ root, p.targetNode target = some root ∧ root < p.nodes.length ∧
      ∀ included ρ, target.bitOf (p.frameOf included ρ) = some (value included ρ p.nodes root) := by
  cases target with
  | readout gid index =>
    obtain ⟨gadget, hgadget, hindex⟩ := htarget
    obtain ⟨symbolic, hsymbolic, hmatches⟩ := h.exists_lookup hgadget
    rw [← hmatches.length_readouts] at hindex
    refine ⟨symbolic.readoutNodes[index], ?_, hmatches.readouts_lt _ (getElem_mem _),
      fun included ρ => ?_⟩
    · rw [targetNode, hsymbolic, bind_eq_bind, bind_some, getElem?_eq_getElem hindex]
    · rw [bitOf, frameOf, hsymbolic]
      simp [hindex]
  | residual gid index =>
    obtain ⟨gadget, hgadget, hindex⟩ := htarget
    obtain ⟨symbolic, hsymbolic, hmatches⟩ := h.exists_lookup hgadget
    rw [← hmatches.length_residual] at hindex
    refine ⟨symbolic.residualNodes[index], ?_, hmatches.residual_lt _ (getElem_mem _),
      fun included ρ => ?_⟩
    · rw [targetNode, hsymbolic, bind_eq_bind, bind_some, getElem?_eq_getElem hindex]
    · rw [bitOf, frameOf, hsymbolic]
      simp [hindex]

theorem Represents.exists_components (h : p.Represents tracker) {root : ℕ}
    (hroot : root < p.nodes.length) (activeGids : Option (List ℕ)) :
    ∃ bits, p.components root activeGids = some bits ∧ bits.Nodup ∧
      ∀ ρ, xorAll (bits.map ρ) = value (included activeGids) ρ p.nodes root :=
  XorNode.exists_collect_root_eq h.graph.ordered h.graph.distinct hroot

theorem getElem?_xorBits {v w : List Bool} (hlength : v.length = w.length) (i : ℕ) :
    (xorBits v w)[i]? = (v[i]?).bind fun a => (w[i]?).map fun b => a ^^ b := by
  rcases Nat.lt_or_ge i v.length with hi | hi
  · have hi' : i < w.length := hlength ▸ hi
    simp [xorBits, hi, hi']
  · have hi' : w.length ≤ i := hlength ▸ hi
    simp [xorBits, hi, hi']

theorem bitOf_ne_iff {F F' D : ℕ → Option PauliFrame}
    {frame frame' : PauliFrame} (hframe : F target.gid = some frame)
    (hframe' : F' target.gid = some frame')
    (hdifference : D target.gid = some (xorFrame frame' frame))
    (hreadouts : frame'.readouts.length = frame.readouts.length)
    (hresidual : frame'.residual.length = frame.residual.length) {changed : Bool}
    (hchanged : target.bitOf D = some changed) :
    target.bitOf F' ≠ target.bitOf F ↔ changed = true := by
  have hbits : ∀ {o o' : Option Bool},
      (o'.bind fun a => o.map fun b => a ^^ b) = some changed → (o' ≠ o ↔ changed = true) := by
    intro o o' hsome
    obtain ⟨a, rfl, hsome⟩ := bind_eq_some_iff.mp hsome
    obtain ⟨b, rfl, rfl⟩ := map_eq_some_iff.mp hsome
    cases a <;> cases b <;> simp
  cases target with
  | readout gid index =>
    change F gid = some frame at hframe
    change F' gid = some frame' at hframe'
    change D gid = some _ at hdifference
    rw [bitOf, hdifference] at hchanged
    rw [bitOf, bitOf, hframe, hframe']
    exact hbits ((getElem?_xorBits hreadouts index).symm.trans hchanged)
  | residual gid index =>
    change F gid = some frame at hframe
    change F' gid = some frame' at hframe'
    change D gid = some _ at hdifference
    rw [bitOf, hdifference] at hchanged
    rw [bitOf, bitOf, hframe, hframe']
    exact hbits ((getElem?_xorBits hresidual index).symm.trans hchanged)

variable {flipped : CorrectionBasis → Bool}

theorem Represents.bitOf_ne_iff_xorAll (h : p.Represents tracker)
    (hdiffer : PauliFrameTracker.Differ flipped tracker tracker') {activeGids : Option (List ℕ)}
    {F F' : ℕ → Option PauliFrame} (hF : (tracker.cutNetwork (included activeGids)).Solves F)
    (hF' : (tracker'.cutNetwork (included activeGids)).Solves F')
    (hsome : (F target.gid).isSome) {root : ℕ}
    (hvalue : ∀ included ρ, target.bitOf (p.frameOf included ρ) =
      some (value included ρ p.nodes root)) {bits : List CorrectionBasis}
    (hbits : ∀ ρ, xorAll (bits.map ρ) = value (included activeGids) ρ p.nodes root) :
    target.bitOf F' ≠ target.bitOf F ↔ xorAll (bits.map flipped) = true := by
  obtain ⟨frame, hframe⟩ := isSome_iff_exists.mp hsome
  obtain ⟨frame', hframe'⟩ := isSome_iff_exists.mp
    ((hdiffer.isSome_iff _ hF hF' target.gid).mpr hsome)
  obtain ⟨gadget, hgadget, -⟩ := bind_eq_some_iff.mp ((hF target.gid).trans hframe)
  obtain ⟨gadget', hgadget', hsame⟩ := hdiffer.base.exists_lookup hgadget
  have hreadouts : gadget'.numReadouts = gadget.numReadouts :=
    eq_of_base_eq (fun _ => rfl) hsame
  have hresidual : gadget'.numOutputObservables = gadget.numOutputObservables :=
    eq_of_base_eq (fun _ => rfl) hsame
  have hlength := length_of_solves _ hF hgadget hframe
  have hlength' := length_of_solves _ hF' hgadget' hframe'
  rw [hbits]
  refine bitOf_ne_iff hframe hframe' (hdiffer.frameOf_eq _ h hF hF' hframe hframe') ?_ ?_
    (hvalue _ _)
  · rw [hlength'.1, hlength.1, hreadouts]
  · rw [hlength'.2, hlength.2, hresidual]

theorem Represents.exists_follow (h : p.Represents tracker)
    (hdiffer : PauliFrameTracker.Differ flipped tracker tracker') {call : TrackerCall}
    (hadmits : tracker.Admits call) : ∃ next next' p', tracker.step call = some next ∧
      tracker'.step (call.flip flipped) = some next' ∧
      PauliFrameTracker.Differ flipped next.1 next'.1 ∧ p.follow next.1 call = some p' ∧
      p.follow next'.1 (call.flip flipped) = some p' ∧ p'.Represents next.1 := by
  obtain ⟨next, next', hstep, hstep', hnext⟩ := hdiffer.exists_step hadmits
  have hwell := hdiffer.wellFormed
  have hsolves := hdiffer.solves
  obtain ⟨order, hwell⟩ := hwell
  cases call with
  | addGadget gid gadgetType gadgetModifier portTypes connectors =>
    obtain ⟨hgid, gadget, hbuild, hfits⟩ := hadmits
    obtain ⟨added, hadded, hattached⟩ := hfits.exists_addGadget_eq hgid hbuild
    obtain ⟨added', hadded', rfl⟩ := map_eq_some_iff.mp hstep
    obtain rfl := some_inj.mp (hadded.symm.trans hadded')
    have hlookup : ((tracker.gadgets.insert gid gadget).lookup gid) = some gadget :=
      AList.lookup_insert _
    obtain ⟨stored, hstored, -⟩ := hattached.core.symm.exists_lookup hlookup
    obtain ⟨stored', hstored', hsame⟩ := hnext.base.exists_lookup hstored
    obtain ⟨p', hp', hrepresents⟩ := h.exists_addGadget_eq hwell hgid
      (built_of_buildGadget_eq hbuild) hfits hattached hstored
    have hp'' : p.addGadget gid stored' = some p' :=
      (eq_of_base_eq (f := p.addGadget gid) (fun _ => rfl) hsame).trans hp'
    refine ⟨_, next', p', hstep, hstep', hnext, ?_, ?_, hrepresents⟩
    · exact bind_eq_some_iff.mpr ⟨stored, hstored, hp'⟩
    · exact bind_eq_some_iff.mpr ⟨stored', hstored', hp''⟩
  | loadRaw gid rawReadouts rawMeasurements =>
    obtain ⟨loaded, hloaded, rfl⟩ := map_eq_some_iff.mp hstep
    obtain ⟨gadget, hgadget, hchanged⟩ := bind_eq_some_iff.mp hloaded
    obtain ⟨changed, hchanged, hinsert⟩ := bind_eq_some_iff.mp hchanged
    obtain ⟨-, -, hchanged⟩ := bind_eq_some_iff.mp hchanged
    obtain ⟨-, -, hchanged⟩ := bind_eq_some_iff.mp hchanged
    obtain ⟨-, -, hchanged⟩ := bind_eq_some_iff.mp hchanged
    obtain ⟨-, -, hchanged⟩ := bind_eq_some_iff.mp hchanged
    obtain rfl := some_inj.mp hchanged
    obtain rfl := some_inj.mp hinsert
    let stored : PauliFrameGadget :=
      { gadget with rawReadouts := some rawReadouts, rawMeasurements := some rawMeasurements }
    have hsame : stored.wiring = gadget.wiring := rfl
    exact ⟨_, next', p, hstep, hstep', hnext, rfl, rfl,
      h.of_sameKernel (sameWiring_insert hgadget hsame).sameKernel⟩
  | loadCorrection gid residual readoutFlips =>
    obtain ⟨_, _, stop, -, hload, hloads, -⟩ := hwell.exists_loadCorrection_eq hsolves hadmits
    obtain rfl := some_inj.mp (hstep.symm.trans hload)
    have hbase : PauliFrameTracker.SameBase tracker next.1 := hloads.base
    exact ⟨next, next', p, hstep, hstep', hnext, rfl, rfl,
      h.of_sameKernel hbase.sameWiring.sameKernel⟩

theorem Represents.exists_runBoth (h : p.Represents tracker)
    (hdiffer : PauliFrameTracker.Differ flipped tracker tracker') {calls : List TrackerCall}
    (hadmits : tracker.EveryStep PauliFrameTracker.Admits calls) :
    ∃ last last' p', runBoth (tracker, p) calls = some (last, p') ∧
      runBoth (tracker', p) (calls.map (TrackerCall.flip flipped)) = some (last', p') ∧
      p'.Represents last ∧ PauliFrameTracker.Differ flipped last last' := by
  induction calls generalizing tracker tracker' p with
  | nil => exact ⟨tracker, tracker', p, rfl, rfl, h, hdiffer⟩
  | cons call calls ih =>
    obtain ⟨next, next', p', hstep, hstep', hnext, hfollow, hfollow', hrepresents⟩ :=
      h.exists_follow hdiffer hadmits.1
    obtain ⟨last, last', p'', hrun, hrun', hlast, hlastDiffer⟩ :=
      ih hrepresents hnext (hadmits.2 next hstep)
    refine ⟨last, last', p'', ?_, ?_, hlast, hlastDiffer⟩
    · rw [runBoth, hstep, bind_eq_bind, bind_some, hfollow]
      exact hrun
    · rw [map_cons, runBoth, hstep', bind_eq_bind, bind_some, hfollow']
      exact hrun'

theorem lookup_addEffects (effects : AList fun _ : CorrectionBasis => List ℕ) (targetIndex : ℕ)
    {bits : List CorrectionBasis} (hbits : bits.Nodup) (b : CorrectionBasis) :
    ((addEffects effects targetIndex bits).lookup b).getD [] =
      (effects.lookup b).getD [] ++ if b ∈ bits then [targetIndex] else [] := by
  induction bits generalizing effects with
  | nil => exact (append_nil _).symm
  | cons component bits ih =>
    rw [nodup_cons] at hbits
    refine (ih _ hbits.2).trans ?_
    rcases eq_or_ne b component with rfl | hb
    · simp [hbits.1]
    · simp [hb]

theorem exists_foldlM_addEffects {activeGids : Option (List ℕ)}
    {componentsOf : CorrectionBasis → List CorrectionBasis} (targets : List CorrectionBasis)
    (htargets : ∀ target ∈ targets, ∃ root, p.targetNode target = some root ∧
      p.components root activeGids = some (componentsOf target) ∧ (componentsOf target).Nodup)
    (start : ℕ) (effects : AList fun _ : CorrectionBasis => List ℕ) :
    ∃ effects', (targets.zipIdx start).foldlM (fun effects target => do
        let root ← p.targetNode target.1
        let bits ← p.components root activeGids
        some (addEffects effects target.2 bits)) effects = some effects' ∧
      ∀ b, (effects'.lookup b).getD [] = (effects.lookup b).getD [] ++
        ((targets.zipIdx start).filter fun target => b ∈ componentsOf target.1).map Prod.snd := by
  induction targets generalizing start effects with
  | nil => exact ⟨effects, rfl, fun b => (append_nil _).symm⟩
  | cons target targets ih =>
    obtain ⟨root, hroot, hcomponents, hnodup⟩ := htargets target mem_cons_self
    obtain ⟨effects', heffects', hlookup⟩ :=
      ih (fun t ht => htargets t (mem_cons_of_mem _ ht)) (start + 1)
        (addEffects effects start (componentsOf target))
    refine ⟨effects', ?_, fun b => ?_⟩
    · rw [zipIdx_cons, foldlM_cons, hroot]
      simp only [bind_eq_bind, bind_some, hcomponents]
      exact heffects'
    · rw [hlookup, lookup_addEffects _ _ hnodup, zipIdx_cons, filter_cons, append_assoc]
      refine congrArg _ ?_
      by_cases hb : b ∈ componentsOf target
      · simp [hb]
      · simp [hb]

theorem foldl_toggle_spec {l : List ℕ} (hl : l.Nodup) {effect : List ℕ} (heffect : effect.Nodup) :
    (l.foldl (fun effect target =>
        if target ∈ effect then effect.erase target else target :: effect) effect).Nodup ∧
      ∀ i, decide (i ∈ l.foldl (fun effect target =>
        if target ∈ effect then effect.erase target else target :: effect) effect) =
          (decide (i ∈ effect) ^^ decide (i ∈ l)) := by
  induction l generalizing effect with
  | nil =>
    refine ⟨heffect, fun i => ?_⟩
    rw [decide_eq_false not_mem_nil, Bool.xor_false]
    rfl
  | cons target l ih =>
    rw [nodup_cons] at hl
    have hnext : (if target ∈ effect then effect.erase target else target :: effect).Nodup := by
      split_ifs with htarget
      · exact heffect.erase target
      · exact nodup_cons.mpr ⟨htarget, heffect⟩
    obtain ⟨hnodup, hmem⟩ := ih hl.2 hnext
    refine ⟨hnodup, fun i => (hmem i).trans ?_⟩
    rcases eq_or_ne i target with rfl | hi
    · split_ifs with htarget
      · simp [heffect.not_mem_erase, htarget, hl.1]
      · simp [htarget, hl.1]
    · split_ifs with htarget
      · simp [mem_erase_of_ne hi, hi]
      · simp [hi]

end PauliFrameSymbolicPropagator

namespace LogicalFlipCache

theorem foldl_xorBasisEffect_spec {cache : LogicalFlipCache}
    (hcache : ∀ b, ((cache.basisEffects.lookup b).getD []).Nodup) (members : List CorrectionBasis)
    {effect : List ℕ} (heffect : effect.Nodup) : (members.foldl cache.xorBasisEffect effect).Nodup ∧
      ∀ i, decide (i ∈ members.foldl cache.xorBasisEffect effect) = (decide (i ∈ effect) ^^
          xorAll (members.map fun b => decide (i ∈ (cache.basisEffects.lookup b).getD []))) := by
  induction members generalizing effect with
  | nil => exact ⟨heffect, fun i => (Bool.xor_false _).symm⟩
  | cons b members ih =>
    obtain ⟨hnodup, hmem⟩ :=
      PauliFrameSymbolicPropagator.foldl_toggle_spec (hcache b) heffect
    obtain ⟨hnodup', hmem'⟩ := ih hnodup
    refine ⟨hnodup', fun i => (hmem' i).trans ?_⟩
    rw [map_cons, xorAll_cons, ← Bool.xor_assoc]
    exact congrArg (· ^^ _) (hmem i)

theorem propagatedLogicalFlips_spec (cache : LogicalFlipCache)
    (hcache : ∀ b, ((cache.basisEffects.lookup b).getD []).Nodup) (correctionGid : ℕ)
    (residualIndices readoutIndices : List ℕ) :
    (cache.propagatedLogicalFlips correctionGid residualIndices readoutIndices).Pairwise (· < ·) ∧
      ∀ i, decide (i ∈ cache.propagatedLogicalFlips correctionGid residualIndices readoutIndices) =
        xorAll ((readoutIndices.map (readout correctionGid) ++
          residualIndices.map (CorrectionBasis.residual correctionGid)).map fun b =>
            decide (i ∈ (cache.basisEffects.lookup b).getD [])) := by
  obtain ⟨hnodup, hmem⟩ := foldl_xorBasisEffect_spec hcache
    (readoutIndices.map (readout correctionGid) ++
      residualIndices.map (CorrectionBasis.residual correctionGid)) nodup_nil
  rw [foldl_append] at hnodup hmem
  have hperm := perm_insertionSort (· ≤ ·) ((residualIndices.map
    (CorrectionBasis.residual correctionGid)).foldl cache.xorBasisEffect
      ((readoutIndices.map (readout correctionGid)).foldl
        cache.xorBasisEffect []))
  have hsorted := pairwise_insertionSort (· ≤ ·) ((residualIndices.map
    (CorrectionBasis.residual correctionGid)).foldl cache.xorBasisEffect
      ((readoutIndices.map (readout correctionGid)).foldl
        cache.xorBasisEffect []))
  refine ⟨?_, fun i => ?_⟩
  · have hdistinct := hperm.nodup_iff.mpr hnodup
    exact (hsorted.and hdistinct).imp fun hboth => lt_of_le_of_ne hboth.1 hboth.2
  · have hi := hmem i
    rw [map_append, xorAll_append] at hi ⊢
    rw [propagatedLogicalFlips, ← Bool.false_xor (_ ^^ _)]
    refine Eq.trans ?_ (hi.trans (congrArg (· ^^ _) (by simp)))
    rw [decide_eq_decide]
    exact hperm.mem_iff

end LogicalFlipCache

namespace PauliFrameSymbolicPropagator

theorem Represents.exists_logicalFlipCache {p : PauliFrameSymbolicPropagator}
    {tracker : PauliFrameTracker} (h : p.Represents tracker) (gadgetIds : List ℕ)
    {targets : List CorrectionBasis} (htargets : ∀ target ∈ targets, tracker.HasBit target) :
    ∃ cache, p.logicalFlipCache gadgetIds targets = some cache ∧
      ∀ gid residualIndices readoutIndices,
        (cache.propagatedLogicalFlips gid residualIndices readoutIndices).Pairwise (· < ·) ∧
        (∀ i ∈ cache.propagatedLogicalFlips gid residualIndices readoutIndices,
          i < targets.length) ∧ ∀ (i : ℕ) target, targets[i]? = some target →
          ∃ root bits, p.targetNode target = some root ∧
            p.components root (some gadgetIds) = some bits ∧
            (i ∈ cache.propagatedLogicalFlips gid residualIndices readoutIndices ↔
              (readoutIndices.map (readout gid) ++
                residualIndices.map (CorrectionBasis.residual gid)).countP
                  (fun b => decide (b ∈ bits)) % 2 = 1) := by
  let componentsOf : CorrectionBasis → List CorrectionBasis := fun target =>
    ((p.targetNode target).bind fun root => p.components root (some gadgetIds)).getD []
  have hcomponents : ∀ target ∈ targets, ∃ root, p.targetNode target = some root ∧
      p.components root (some gadgetIds) = some (componentsOf target) ∧
        (componentsOf target).Nodup := by
    intro target htarget
    obtain ⟨root, hroot, hlt, -⟩ := h.exists_targetNode (htargets target htarget)
    obtain ⟨bits, hbits, hnodup, -⟩ := h.exists_components hlt (some gadgetIds)
    have heq : componentsOf target = bits := by
      change ((p.targetNode target).bind _).getD [] = bits
      rw [hroot, bind_some, hbits, getD_some]
    exact ⟨root, hroot, heq ▸ hbits, heq ▸ hnodup⟩
  obtain ⟨effects, heffects, hlookup⟩ := exists_foldlM_addEffects targets hcomponents 0 ∅
  have hempty : ∀ b, (effects.lookup b).getD [] =
      ((targets.zipIdx 0).filter fun target => b ∈ componentsOf target.1).map Prod.snd :=
    hlookup
  have hmem : ∀ b i, i ∈ (effects.lookup b).getD [] ↔
      ∃ target, targets[i]? = some target ∧ b ∈ componentsOf target := by
    intro b i
    rw [hempty, List.mem_map]
    constructor
    · rintro ⟨⟨target, j⟩, hfilter, rfl⟩
      rw [List.mem_filter, List.mem_zipIdx_iff_getElem?, decide_eq_true_iff] at hfilter
      exact ⟨target, hfilter⟩
    · rintro ⟨target, htarget, hb⟩
      refine ⟨(target, i), ?_, rfl⟩
      rw [List.mem_filter, List.mem_zipIdx_iff_getElem?, decide_eq_true_iff]
      exact ⟨htarget, hb⟩
  have hnodup : ∀ b, ((effects.lookup b).getD []).Nodup := by
    intro b
    rw [hempty]
    refine ((filter_sublist).map Prod.snd).nodup ?_
    rw [zipIdx_map_snd]
    exact nodup_range'
  refine ⟨⟨effects⟩, ?_, fun gid residualIndices readoutIndices => ?_⟩
  · rw [logicalFlipCache, heffects]
    rfl
  · obtain ⟨hsorted, hflips⟩ := LogicalFlipCache.propagatedLogicalFlips_spec ⟨effects⟩ hnodup gid
      residualIndices readoutIndices
    have hiff : ∀ i, i ∈ LogicalFlipCache.propagatedLogicalFlips ⟨effects⟩ gid residualIndices
        readoutIndices ↔ (readoutIndices.map (readout gid) ++
          residualIndices.map (CorrectionBasis.residual gid)).countP
            (fun b => decide (i ∈ (effects.lookup b).getD [])) % 2 = 1 := by
      intro i
      rw [← decide_eq_decide, hflips, xorAll_map_eq_decide_countP]
    refine ⟨hsorted, fun i hi => ?_, fun i target htarget => ?_⟩
    · have hodd := (hiff i).mp hi
      obtain ⟨b, -, hb⟩ := countP_pos_iff.mp (Nat.pos_of_ne_zero fun hzero => by
        rw [hzero] at hodd
        cases hodd)
      rw [decide_eq_true_iff, hmem] at hb
      obtain ⟨target, htarget, -⟩ := hb
      exact (List.getElem?_eq_some_iff.mp htarget).1
    · obtain ⟨root, hroot, hbits, -⟩ :=
        hcomponents target (List.mem_of_getElem? htarget)
      refine ⟨root, componentsOf target, hroot, hbits, (hiff i).trans ?_⟩
      have hsame : (fun b => decide (i ∈ (effects.lookup b).getD [])) =
          fun b => decide (b ∈ componentsOf target) := by
        funext b
        rw [decide_eq_decide, hmem]
        constructor
        · rintro ⟨other, hother, hb⟩
          obtain rfl := some_inj.mp (htarget.symm.trans hother)
          exact hb
        · exact fun hb => ⟨target, htarget, hb⟩
      rw [hsame]

/-- The components of a target are the correction bits that change it. -/
theorem flips_follow_components (calls : List TrackerCall)
    (hadmits : PauliFrameTracker.new.EveryStep PauliFrameTracker.Admits calls) :
    ∃ tracker p, runBoth (.new, new) calls = some (tracker, p) ∧ (∀ bit, ∃ tracker',
        runBoth (.new, new) (calls.map (TrackerCall.flip fun b => decide (b = bit))) =
          some (tracker', p) ∧
        ∀ target, tracker.HasBit target → ∃ root, p.targetNode target = some root ∧
          (∃ bits, p.components root none = some bits ∧ ((tracker.frames target.gid).isSome →
              (target.bitOf tracker'.frames ≠ target.bitOf tracker.frames ↔ bit ∈ bits))) ∧
          ∀ activeGids, ∃ bits, p.components root (some activeGids) = some bits ∧
            ∃ F F', (∀ G, (tracker.cutNetwork (included (some activeGids))).Solves G ↔ G = F) ∧
              (∀ G, (tracker'.cutNetwork (included (some activeGids))).Solves G ↔ G = F') ∧
              ((F target.gid).isSome → (target.bitOf F' ≠ target.bitOf F ↔ bit ∈ bits))) ∧
      ∀ gadgetIds targets, (∀ target ∈ targets, tracker.HasBit target) →
        ∃ cache, p.logicalFlipCache gadgetIds targets = some cache ∧
          ∀ gid residualIndices readoutIndices,
            (cache.propagatedLogicalFlips gid residualIndices readoutIndices).Pairwise (· < ·) ∧
            (∀ i ∈ cache.propagatedLogicalFlips gid residualIndices readoutIndices,
              i < targets.length) ∧ ∀ (i : ℕ) target, targets[i]? = some target →
              ∃ root bits, p.targetNode target = some root ∧
                p.components root (some gadgetIds) = some bits ∧
                (i ∈ cache.propagatedLogicalFlips gid residualIndices readoutIndices ↔
                  (readoutIndices.map (CorrectionBasis.readout gid) ++
                    residualIndices.map (CorrectionBasis.residual gid)).countP
                      (fun b => decide (b ∈ bits)) % 2 = 1) := by
  have hruns := fun flipped => represents_new.exists_runBoth
    (differ_new flipped) hadmits
  obtain ⟨tracker, -, p, hrun, -, hp, -⟩ := hruns fun _ => false
  refine ⟨tracker, p, hrun, fun bit => ?_, fun gadgetIds targets htargets =>
    hp.exists_logicalFlipCache gadgetIds htargets⟩
  obtain ⟨tracker₂, tracker', p₂, hrun₂, hrun', -, hdiffer⟩ := hruns fun b => decide (b = bit)
  obtain ⟨rfl, rfl⟩ := Prod.mk.inj (some_inj.mp (hrun.symm.trans hrun₂))
  refine ⟨tracker', hrun', fun target htarget => ?_⟩
  obtain ⟨root, hroot, hlt, hvalue⟩ := hp.exists_targetNode htarget
  refine ⟨root, hroot, ?_, fun activeGids => ?_⟩
  · obtain ⟨bits, hbits, hnodup, hsum⟩ := hp.exists_components hlt none
    refine ⟨bits, hbits, fun hsome => ?_⟩
    have hall : ∀ gid, included none gid = true := fun _ => rfl
    have hF := (solves_cutNetwork_of_included hall _).mpr hdiffer.solves
    have hF' := (solves_cutNetwork_of_included hall _).mpr hdiffer.solves'
    rw [hp.bitOf_ne_iff_xorAll hdiffer hF hF' hsome hvalue hsum, xorAll_map_decide_eq hnodup,
      decide_eq_true_iff]
  · obtain ⟨bits, hbits, hnodup, hsum⟩ := hp.exists_components hlt (some activeGids)
    obtain ⟨order, hwell⟩ := hdiffer.wellFormed
    obtain ⟨order', hwell'⟩ := hdiffer.wellFormed'
    obtain ⟨F, hF⟩ := hwell.exists_solves_cutNetwork (included (some activeGids))
    obtain ⟨F', hF'⟩ := hwell'.exists_solves_cutNetwork (included (some activeGids))
    refine ⟨bits, hbits, F, F', fun G => ⟨fun hG => ?_, fun hG => hG ▸ hF⟩,
      fun G => ⟨fun hG => ?_, fun hG => hG ▸ hF'⟩, fun hsome => ?_⟩
    · exact (hwell.ordered_cutNetwork _).solves_unique hG hF
    · exact (hwell'.ordered_cutNetwork _).solves_unique hG hF'
    · rw [hp.bitOf_ne_iff_xorAll hdiffer hF hF' hsome hvalue hsum, xorAll_map_decide_eq hnodup,
        decide_eq_true_iff]

/-- The components in a run with one gadget. -/
theorem residualReload_components :
    ∃ tracker p, runBoth (.new, new) PauliFrameTracker.residualReload = some (tracker, p) ∧
      ∀ bit, ∃ tracker', runBoth (.new, new)
        (PauliFrameTracker.residualReload.map (TrackerCall.flip fun b => decide (b = bit))) =
          some (tracker', p) := by
  obtain ⟨tracker, p, hrun, hflips, -⟩ := flips_follow_components PauliFrameTracker.residualReload
    residualReload_admitted
  refine ⟨tracker, p, hrun, fun bit => ?_⟩
  obtain ⟨tracker', hrun', -⟩ := hflips bit
  exact ⟨tracker', hrun'⟩

end PauliFrameSymbolicPropagator

end QdkEc
