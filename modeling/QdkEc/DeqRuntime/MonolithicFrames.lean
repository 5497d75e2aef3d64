import QdkEc.DeqRuntime.FrameRuns

/-!
# Frame updates of a decoded component

This module models how the monolithic coordinator loads the corrections of a decoded
component: gadget by gadget in the order of their identifiers, with one update
expected from every load, and one reply to every gadget of the component.  The
updates are complete exactly when the identifiers of the component follow the
dependencies and no gadget of another component waits for the component.
-/

namespace QdkEc

open List PauliFrameGadget

namespace PauliFrameTracker

/-- What one error of the parity factor adds to a gadget of the component. -/
structure ErrorEffect where
  localGid : ℕ
  residual : List ℕ
  readoutFlips : List ℕ

def negateIndex (bits : List Bool) (i : ℕ) : Option (List Bool) :=
  if i < bits.length then some (bits.set i (!bits.getD i false)) else none

/-- Negate bits of one vector of a list of vectors. -/
def negateIndices (vectors : List (List Bool)) (position : ℕ) (indices : List ℕ) :
    Option (List (List Bool)) := do
  let bits ← vectors[position]?
  let bits ← indices.foldlM negateIndex bits
  some (vectors.set position bits)

/-- Apply the effect of one error to the residuals and the readout flips of the component. -/
def applyError (corrections : List (List Bool) × List (List Bool)) (error : ErrorEffect) :
    Option (List (List Bool) × List (List Bool)) := do
  let residuals ← negateIndices corrections.1 error.localGid error.residual
  let readoutFlips ← negateIndices corrections.2 error.localGid error.readoutFlips
  some (residuals, readoutFlips)

/-- Load corrections one after the other, each of which has to return the readouts of its gadget;
with debug assertions it has to return nothing else. -/
def loadInOrder (debugAssertions : Bool) :
    PauliFrameTracker → List (ℕ × List Bool × List Bool) →
      Option (PauliFrameTracker × List (ℕ × List Bool))
  | tracker, [] => some (tracker, [])
  | tracker, load :: loads => do
      let next ← tracker.loadCorrection load.1 load.2.1 load.2.2
      guard (debugAssertions = true → next.2.keys = [load.1])
      let readouts ← next.2.lookup load.1
      let rest ← loadInOrder debugAssertions next.1 loads
      some (rest.1, (load.1, readouts) :: rest.2)

/-- Load the corrections of a component from the errors of its parity factor; a gadget that the
tracker does not have ends the update. -/
def updatePauliFrame (debugAssertions : Bool) (tracker : PauliFrameTracker) (gids : List ℕ)
    (errors : List ErrorEffect) :
    Option (PauliFrameTracker × List (ℕ × List Bool)) :=
  match gids.mapM fun gid => tracker.gadgets.lookup gid with
  | none => some (tracker, [])
  | some gadgets => do
      let corrections ← errors.foldlM applyError
        (gadgets.map fun gadget => List.replicate gadget.numOutputObservables false,
          gadgets.map fun gadget => List.replicate gadget.numReadouts false)
      loadInOrder debugAssertions tracker (gids.zip (corrections.1.zip corrections.2))

/-- Reply to the gadgets of the updates; `none` is a gadget that does not wait. -/
def sendReplies :
    List ℕ → List (ℕ × List Bool) → Option (List (ℕ × List Bool))
  | _, [] => some []
  | waiting, update :: updates => do
      guard (update.1 ∈ waiting)
      let replies ← sendReplies (waiting.erase update.1) updates
      some (update :: replies)

/-- Load the corrections of a component and reply to its gadgets. -/
def decodeSubgraphFrames (debugAssertions : Bool) (tracker : PauliFrameTracker) (component : List ℕ)
    (errors : List ErrorEffect) :
    Option (PauliFrameTracker × List (ℕ × List Bool)) := do
  let gidVec := component.insertionSort (· ≤ ·)
  let updates ← updatePauliFrame debugAssertions tracker gidVec errors
  let replies ← sendReplies component updates.2
  some (updates.1, replies)

variable {tracker : PauliFrameTracker} {order : List ℕ}

/-- What the first correction of a gadget does. -/
structure FirstLoad (tracker : PauliFrameTracker) (gid : ℕ)
    (next : PauliFrameTracker × PauliFrameUpdates) :
    Prop where
  wellFormed : ∃ order, next.1.WellFormed order
  solves : next.1.network.Solves next.1.frames
  decodedOf : ∀ u, (next.1.decodedOf u).isSome ↔ (tracker.decodedOf u).isSome ∨ u = gid
  frames : ∀ {v frame}, tracker.frames v = some frame → next.1.frames v = some frame
  lookup : ∀ v, (tracker.readoutsOf v).toList ++ (next.2.lookup v).toList =
    (next.1.readoutsOf v).toList
  base : ∀ u, (next.1.gadgets.lookup u).map PauliFrameGadget.base =
    (tracker.gadgets.lookup u).map PauliFrameGadget.base

theorem WellFormed.exists_firstLoad (h : tracker.WellFormed order)
    (hsolves : tracker.network.Solves tracker.frames) {gid : ℕ} {residual readoutFlips : List Bool}
    (hadmits : tracker.Admits (.loadCorrection gid residual readoutFlips))
    (hnone : tracker.decodedOf gid = none) :
    ∃ next, tracker.loadCorrection gid residual readoutFlips = some next ∧
      tracker.FirstLoad gid next := by
  obtain ⟨loaded, touched, next, -, hload, hloads, hdecoded⟩ :=
    h.exists_loadCorrection_eq hsolves hadmits
  have hframe := frames_eq_none_of_decodedOf hsolves hnone
  refine ⟨next, hload, {
      wellFormed := ⟨order, hloads.wellFormed⟩
      solves := hloads.network ▸ hloads.solves
      decodedOf := fun u => ?_
      frames := hloads.frames_of_first hframe
      lookup := hloads.lookup_of_first hframe
      base := hloads.base }⟩
  rw [hdecoded]
  rcases eq_or_ne u gid with rfl | hu
  · simp
  · simp [hu]

section FirstLoad

variable {gid : ℕ} {next : PauliFrameTracker × PauliFrameUpdates}
variable (hfirst : tracker.FirstLoad gid next)

include hfirst

theorem FirstLoad.ancestor_eq : next.1.Ancestor = tracker.Ancestor := by
  have hfactor : ∀ (o : Option PauliFrameGadget) (u : ℕ),
      (∃ gadget, o = some gadget ∧ u ∈ gadget.parents) ↔
        ∃ gadget, o.map PauliFrameGadget.base = some gadget ∧ u ∈ gadget.parents := by
    rintro (_ | gadget) u
    · simp
    · simp only [Option.map_some, Option.some.injEq, exists_eq_left']
      rfl
  refine congrArg Relation.ReflTransGen (funext fun u => funext fun v => propext ?_)
  rw [hfactor, hfirst.base, ← hfactor]

theorem FirstLoad.admits {u : ℕ} {residual readoutFlips : List Bool}
    (hadmits : tracker.Admits (.loadCorrection u residual readoutFlips)) :
    next.1.Admits (.loadCorrection u residual readoutFlips) := by
  obtain ⟨gadget, hgadget, hraw, hreadouts, hresidual⟩ := hadmits
  have hsame := hfirst.base u
  rw [hgadget, Option.map_some] at hsame
  obtain ⟨gadget', hgadget', hbase⟩ := Option.map_eq_some_iff.mp hsame
  refine ⟨gadget', hgadget', ?_, ?_, ?_⟩
  · exact (congrArg (fun g : PauliFrameGadget => g.rawReadouts.isSome) hbase).trans hraw
  · exact hreadouts.trans (congrArg numReadouts hbase).symm
  · exact hresidual.trans (congrArg numOutputObservables hbase).symm

theorem FirstLoad.isSome_lookup_iff (v : ℕ) :
    (next.2.lookup v).isSome ↔ tracker.frames v = none ∧ (next.1.frames v).isSome := by
  have hlookup := hfirst.lookup v
  rw [readoutsOf, readoutsOf] at hlookup
  cases hold : tracker.frames v with
  | none =>
    rw [hold] at hlookup
    cases hnew : next.1.frames v <;> cases hupdate : next.2.lookup v <;>
      rw [hnew, hupdate] at hlookup <;> simp at hlookup ⊢
  | some frame =>
    rw [hold, hfirst.frames hold] at hlookup
    cases hupdate : next.2.lookup v with
    | none => simp
    | some readouts =>
      rw [hupdate] at hlookup
      simp at hlookup

end FirstLoad

/-- Every gadget of a list comes after the ones on which it depends, some of which are done. -/
def InOrder (R : ℕ → ℕ → Prop) :
    (ℕ → Prop) → List ℕ → Prop
  | _, [] => True
  | done, gid :: gids =>
    (∀ u, R u gid → u = gid ∨ done u) ∧ InOrder R (fun u => done u ∨ u = gid) gids

theorem inOrder_iff {R : ℕ → ℕ → Prop} {done : ℕ → Prop} {gids : List ℕ}
    (hsorted : gids.Pairwise (· < ·)) :
    InOrder R done gids ↔ ∀ gid ∈ gids, ∀ u, R u gid → u = gid ∨ done u ∨ u ∈ gids ∧ u < gid := by
  induction gids generalizing done with
  | nil => simp [InOrder]
  | cons gid gids ih =>
    rw [pairwise_cons] at hsorted
    obtain ⟨hlt, hsorted⟩ := hsorted
    rw [InOrder, ih hsorted]
    constructor
    · rintro ⟨hfirst, hrest⟩ v hv u hu
      rcases mem_cons.mp hv with rfl | hv
      · exact (hfirst u hu).imp_right .inl
      · rcases hrest v hv u hu with huv | (hdone | rfl) | ⟨hmem, huv⟩
        · exact .inl huv
        · exact .inr (.inl hdone)
        · exact .inr (.inr ⟨mem_cons_self, hlt v ‹_›⟩)
        · exact .inr (.inr ⟨mem_cons_of_mem _ hmem, huv⟩)
    · intro hall
      constructor
      · intro u hu
        rcases hall gid mem_cons_self u hu with huv | hdone | ⟨hmem, huv⟩
        · exact .inl huv
        · exact .inr hdone
        · rcases mem_cons.mp hmem with rfl | hmem
          · exact .inl rfl
          · exact absurd (hlt u hmem) (Nat.not_lt_of_gt huv)
      · intro v hv u hu
        rcases hall v (mem_cons_of_mem _ hv) u hu with huv | hdone | ⟨hmem, huv⟩
        · exact .inl huv
        · exact .inr (.inl (.inl hdone))
        · rcases mem_cons.mp hmem with rfl | hmem
          · exact .inr (.inl (.inr rfl))
          · exact .inr (.inr ⟨hmem, huv⟩)

/-- The gadgets whose corrections are loaded. -/
def Corrected (tracker : PauliFrameTracker) (u : ℕ) : Prop :=
  (tracker.decodedOf u).isSome

/-- No gadget that waits for a frame has its last missing ancestors in a list. -/
def NoneWaits (tracker : PauliFrameTracker) (gids : List ℕ) : Prop :=
  ∀ v, tracker.Corrected v → tracker.frames v = none →
    ∃ u, tracker.Ancestor u v ∧ ¬ tracker.Corrected u ∧ u ∉ gids

/-- What first corrections of several gadgets do. -/
structure FirstLoads (tracker : PauliFrameTracker) (gids : List ℕ) (stop : PauliFrameTracker) :
    Prop where
  wellFormed : ∃ order, stop.WellFormed order
  solves : stop.network.Solves stop.frames
  corrected : ∀ u, stop.Corrected u ↔ tracker.Corrected u ∨ u ∈ gids
  frames : ∀ {v frame}, tracker.frames v = some frame → stop.frames v = some frame
  ancestor : stop.Ancestor = tracker.Ancestor

/-- Corrections that can be loaded: of different gadgets that have raw data and no correction. -/
structure Loadable (tracker : PauliFrameTracker) (loads : List (ℕ × List Bool × List Bool)) :
    Prop where
  nodup : (loads.map Prod.fst).Nodup
  admits : ∀ load ∈ loads, tracker.Admits (.loadCorrection load.1 load.2.1 load.2.2)
  none : ∀ load ∈ loads, tracker.decodedOf load.1 = none

variable {loads : List (ℕ × List Bool × List Bool)}

theorem FirstLoad.loadable {load : ℕ × List Bool × List Bool}
    (hloadable : tracker.Loadable (load :: loads))
    {next : PauliFrameTracker × PauliFrameUpdates} (hfirst : tracker.FirstLoad load.1 next) :
    next.1.Loadable loads where
  nodup := (nodup_cons.mp hloadable.nodup).2
  admits load' hload' := hfirst.admits (hloadable.admits load' (mem_cons_of_mem _ hload'))
  none load' hload' := by
    have hne : load'.1 ≠ load.1 := by
      intro heq
      refine (nodup_cons.mp hloadable.nodup).1 ?_
      rw [← heq]
      exact mem_map_of_mem hload'
    have hiff := hfirst.decodedOf load'.1
    rw [hloadable.none load' (mem_cons_of_mem _ hload')] at hiff
    cases hdecoded : next.1.decodedOf load'.1 with
    | none => rfl
    | some decoded =>
      rw [hdecoded] at hiff
      simp [hne] at hiff

theorem FirstLoad.firstLoads {gid : ℕ} {next : PauliFrameTracker × PauliFrameUpdates}
    (hfirst : tracker.FirstLoad gid next) {gids : List ℕ} {stop : PauliFrameTracker}
    (hrest : next.1.FirstLoads gids stop) : tracker.FirstLoads (gid :: gids) stop where
  wellFormed := hrest.wellFormed
  solves := hrest.solves
  corrected u := by
    rw [hrest.corrected, Corrected, hfirst.decodedOf, mem_cons, or_assoc]
    rfl
  frames hframe := hrest.frames (hfirst.frames hframe)
  ancestor := hrest.ancestor.trans hfirst.ancestor_eq

theorem inOrder_of_loadInOrder {debugAssertions : Bool}
    (h : tracker.WellFormed order) (hsolves : tracker.network.Solves tracker.frames)
    (hloadable : tracker.Loadable loads) {stop : PauliFrameTracker × List (ℕ × List Bool)}
    (hstop : loadInOrder debugAssertions tracker loads = some stop) :
    InOrder tracker.Ancestor tracker.Corrected (loads.map Prod.fst) ∧
      tracker.FirstLoads (loads.map Prod.fst) stop.1 := by
  induction loads generalizing tracker order stop with
  | nil =>
    obtain rfl := Option.some_inj.mp hstop
    exact ⟨trivial, ⟨order, h⟩, hsolves, by simp, fun hframe => hframe, rfl⟩
  | cons load loads ih =>
    obtain ⟨next, hnext, hfirst⟩ := h.exists_firstLoad hsolves
      (hloadable.admits load mem_cons_self) (hloadable.none load mem_cons_self)
    rw [loadInOrder, hnext, Option.bind_eq_bind, Option.bind_some] at hstop
    obtain ⟨_, -, hstop⟩ := Option.bind_eq_some_iff.mp hstop
    obtain ⟨readouts, hreadouts, hstop⟩ := Option.bind_eq_some_iff.mp hstop
    obtain ⟨rest, hrest, hstop⟩ := Option.bind_eq_some_iff.mp hstop
    obtain rfl := Option.some_inj.mp hstop
    obtain ⟨order', hwell⟩ := hfirst.wellFormed
    obtain ⟨hinOrder, hloads⟩ := ih hwell hfirst.solves (hfirst.loadable hloadable) hrest
    have hframe := ((hfirst.isSome_lookup_iff load.1).mp (by rw [hreadouts]; rfl)).2
    rw [hwell.isSome_frames_iff hfirst.solves, hfirst.ancestor_eq] at hframe
    have hcorrected : next.1.Corrected = fun u => tracker.Corrected u ∨ u = load.1 :=
      funext fun u => propext (hfirst.decodedOf u)
    rw [hfirst.ancestor_eq, hcorrected] at hinOrder
    refine ⟨⟨fun u hu => ?_, hinOrder⟩, hfirst.firstLoads hloads⟩
    exact ((hfirst.decodedOf u).mp (hframe u hu)).symm

theorem exists_loadInOrder_eq (debugAssertions : Bool)
    (h : tracker.WellFormed order) (hsolves : tracker.network.Solves tracker.frames)
    (hloadable : tracker.Loadable loads)
    (hinOrder : InOrder tracker.Ancestor tracker.Corrected (loads.map Prod.fst))
    (hwaits : tracker.NoneWaits (loads.map Prod.fst)) :
    ∃ stop, loadInOrder debugAssertions tracker loads = some stop ∧
      stop.2.map Prod.fst = loads.map Prod.fst ∧
        ∀ update ∈ stop.2, stop.1.readoutsOf update.1 = some update.2 := by
  induction loads generalizing tracker order with
  | nil => exact ⟨(tracker, []), rfl, rfl, by simp⟩
  | cons load loads ih =>
    obtain ⟨next, hnext, hfirst⟩ := h.exists_firstLoad hsolves
      (hloadable.admits load mem_cons_self) (hloadable.none load mem_cons_self)
    obtain ⟨order', hwell⟩ := hfirst.wellFormed
    have hcorrected : next.1.Corrected = fun u => tracker.Corrected u ∨ u = load.1 :=
      funext fun u => propext (hfirst.decodedOf u)
    have hmissing : tracker.frames load.1 = none :=
      frames_eq_none_of_decodedOf hsolves (hloadable.none load mem_cons_self)
    have hframe : (next.1.frames load.1).isSome := by
      rw [hwell.isSome_frames_iff hfirst.solves, hfirst.ancestor_eq]
      exact fun u hu => (hfirst.decodedOf u).mpr (hinOrder.1 u hu).symm
    have hinOrder' : InOrder next.1.Ancestor next.1.Corrected (loads.map Prod.fst) := by
      rw [hfirst.ancestor_eq, hcorrected]
      exact hinOrder.2
    have hwaits' : next.1.NoneWaits (loads.map Prod.fst) := by
      intro v hv hnone
      rcases (hfirst.decodedOf v).mp hv with hold | rfl
      · have hnone' : tracker.frames v = none := by
          by_contra hsome
          obtain ⟨frame, hold'⟩ := Option.ne_none_iff_exists'.mp hsome
          rw [hfirst.frames hold'] at hnone
          cases hnone
        obtain ⟨u, hu, hmissing', hmem⟩ := hwaits v hold hnone'
        rw [map_cons, mem_cons, not_or] at hmem
        refine ⟨u, hfirst.ancestor_eq ▸ hu, fun hcorr => ?_, hmem.2⟩
        exact ((hfirst.decodedOf u).mp hcorr).elim hmissing' hmem.1
      · rw [hnone] at hframe
        cases hframe
    obtain ⟨stop, hstop, hgids, hreadouts⟩ :=
      ih hwell hfirst.solves (hfirst.loadable hloadable) hinOrder' hwaits'
    obtain ⟨readouts, hlookup⟩ := Option.isSome_iff_exists.mp
      ((hfirst.isSome_lookup_iff load.1).mpr ⟨hmissing, hframe⟩)
    have hreturned : ∀ v, v ∈ next.2.keys ↔ v ∈ [load.1] := by
      intro v
      rw [mem_singleton, ← AList.mem_keys, ← AList.lookup_isSome, hfirst.isSome_lookup_iff]
      constructor
      · rintro ⟨hnone, hsome⟩
        rw [hwell.isSome_frames_iff hfirst.solves, hfirst.ancestor_eq] at hsome
        rcases (hfirst.decodedOf v).mp (hsome v .refl) with hold | hv
        · obtain ⟨u, hu, hmissing', hmem⟩ := hwaits v hold hnone
          rw [map_cons, mem_cons, not_or] at hmem
          exact ((hfirst.decodedOf u).mp (hsome u hu)).elim
            (fun hcorr => absurd hcorr hmissing') (fun heq => absurd heq hmem.1)
        · exact hv
      · rintro rfl
        exact ⟨hmissing, hframe⟩
    have hkeys : next.2.keys = [load.1] := perm_singleton.mp
      ((perm_ext_iff_of_nodup next.2.nodupKeys (nodup_singleton _)).mpr hreturned)
    have hloads := (inOrder_of_loadInOrder hwell hfirst.solves (hfirst.loadable hloadable)
      hstop).2
    refine ⟨(stop.1, (load.1, readouts) :: stop.2), ?_, ?_, ?_⟩
    · rw [loadInOrder, hnext, Option.bind_eq_bind, Option.bind_some,
        (Option.guard_eq_some' ()).mpr fun _ => hkeys]
      simp only [Option.bind_eq_bind, Option.bind_some, hlookup, hstop]
    · rw [map_cons, map_cons, hgids]
    · intro update hupdate
      rcases mem_cons.mp hupdate with rfl | hupdate
      · have hvalue := hfirst.lookup load.1
        obtain ⟨frame, hframe'⟩ := Option.isSome_iff_exists.mp hframe
        rw [readoutsOf, readoutsOf, hmissing, hlookup, hframe'] at hvalue
        obtain rfl : readouts = frame.readouts := by simpa using hvalue
        rw [readoutsOf, hloads.frames hframe']
        rfl
      · exact hreadouts update hupdate

theorem exists_negateIndices_eq {vectors : List (List Bool)} {position : ℕ} {bits : List Bool}
    (hbits : vectors[position]? = some bits) {indices : List ℕ}
    (hindices : ∀ i ∈ indices, i < bits.length) :
    ∃ vectors', negateIndices vectors position indices = some vectors' ∧
      vectors'.map List.length = vectors.map List.length := by
  have hfold : ∀ (l : List ℕ) (start : List Bool), (∀ i ∈ l, i < start.length) →
      ∃ stop, l.foldlM negateIndex start = some stop ∧ stop.length = start.length := by
    intro l
    induction l with
    | nil => exact fun start _ => ⟨start, rfl, rfl⟩
    | cons i l ih =>
      intro start hl
      have hi := hl i mem_cons_self
      obtain ⟨stop, hstop, hlength⟩ := ih (start.set i (!start.getD i false))
        fun j hj => by
          rw [length_set]
          exact hl j (mem_cons_of_mem _ hj)
      refine ⟨stop, ?_, hlength.trans length_set⟩
      rw [foldlM_cons, negateIndex, if_pos hi]
      exact hstop
  obtain ⟨bits', hbits', hlength⟩ := hfold indices bits hindices
  refine ⟨vectors.set position bits', ?_, ?_⟩
  · rw [negateIndices, hbits, Option.bind_eq_bind, Option.bind_some, hbits']
    rfl
  · obtain ⟨hlt, hget⟩ := List.getElem?_eq_some_iff.mp hbits
    have hsame : (vectors.map List.length)[position]? = some bits'.length := by
      rw [List.getElem?_map, hbits, Option.map_some, hlength]
    rw [List.map_set]
    obtain ⟨hlt', hget'⟩ := List.getElem?_eq_some_iff.mp hsame
    rw [← hget', set_getElem_self]

/-- A component whose corrections can be computed: its gadgets have raw data and no correction, and
the errors of its parity factor are in range. -/
structure ComponentFits (tracker : PauliFrameTracker) (component : List ℕ)
    (errors : List ErrorEffect) :
    Prop where
  nodup : component.Nodup
  raw : ∀ gid ∈ component, ∃ gadget, tracker.gadgets.lookup gid = some gadget ∧
    gadget.rawReadouts.isSome
  none : ∀ gid ∈ component, tracker.decodedOf gid = none
  errors : ∀ error ∈ errors, ∃ gid gadget,
    (component.insertionSort (· ≤ ·))[error.localGid]? = some gid ∧
      tracker.gadgets.lookup gid = some gadget ∧
        (∀ i ∈ error.residual, i < gadget.numOutputObservables) ∧
          ∀ i ∈ error.readoutFlips, i < gadget.numReadouts

section ComponentFits

variable {component : List ℕ} {errors : List ErrorEffect}
variable (hfits : tracker.ComponentFits component errors)

include hfits

theorem ComponentFits.sorted : (component.insertionSort (· ≤ ·)).Pairwise (· < ·) := by
  have hperm := perm_insertionSort (· ≤ ·) component
  have hle := pairwise_insertionSort (· ≤ ·) component
  have hnodup : (component.insertionSort (· ≤ ·)).Nodup := hperm.nodup_iff.mpr hfits.nodup
  exact (hle.and hnodup).imp fun hab => lt_of_le_of_ne hab.1 hab.2

omit hfits in
theorem exists_getElem?_of_map_length_eq {vectors : List (List Bool)}
    {gadgets : List PauliFrameGadget} {f : PauliFrameGadget → ℕ}
    (hlengths : vectors.map List.length = gadgets.map f) {i : ℕ} {gadget : PauliFrameGadget}
    (hgadget : gadgets[i]? = some gadget) :
    ∃ bits, vectors[i]? = some bits ∧ bits.length = f gadget := by
  have hsame := congrArg (fun l : List ℕ => l[i]?) hlengths
  simp only [List.getElem?_map, hgadget, Option.map_some] at hsame
  exact Option.map_eq_some_iff.mp hsame

theorem ComponentFits.exists_foldlM_applyError_eq {gadgets : List PauliFrameGadget}
    (hgadgets : List.Forall₂ (fun gid gadget => tracker.gadgets.lookup gid = some gadget)
      (component.insertionSort (· ≤ ·)) gadgets) (l : List ErrorEffect)
    (hl : ∀ error ∈ l, error ∈ errors) (start : List (List Bool) × List (List Bool))
    (hresiduals : start.1.map List.length = gadgets.map numOutputObservables)
    (hreadouts : start.2.map List.length = gadgets.map numReadouts) :
    ∃ stop, l.foldlM applyError start = some stop ∧
      stop.1.map List.length = gadgets.map numOutputObservables ∧
        stop.2.map List.length = gadgets.map numReadouts := by
  induction l generalizing start with
  | nil => exact ⟨start, rfl, hresiduals, hreadouts⟩
  | cons error l ih =>
    obtain ⟨gid, gadget, hgid, hgadget, hresidual, hflips⟩ :=
      hfits.errors error (hl error mem_cons_self)
    have hlocal : gadgets[error.localGid]? = some gadget := by
      obtain ⟨hlt, hget⟩ := List.getElem?_eq_some_iff.mp hgid
      have hlt' : error.localGid < gadgets.length := hgadgets.length_eq ▸ hlt
      have hlookup := hgadgets.get hlt hlt'
      rw [List.get_eq_getElem, List.get_eq_getElem, hget, hgadget] at hlookup
      rw [List.getElem?_eq_getElem hlt', Option.some_inj.mp hlookup]
    obtain ⟨bits, hbits, hlength⟩ := exists_getElem?_of_map_length_eq hresiduals hlocal
    obtain ⟨bits', hbits', hlength'⟩ := exists_getElem?_of_map_length_eq hreadouts hlocal
    obtain ⟨residuals, hresiduals', hsame⟩ :=
      exists_negateIndices_eq hbits fun i hi => hlength ▸ hresidual i hi
    obtain ⟨readouts, hreadouts', hsame'⟩ :=
      exists_negateIndices_eq hbits' fun i hi => hlength' ▸ hflips i hi
    obtain ⟨stop, hstop, hlengths⟩ := ih (fun e he => hl e (mem_cons_of_mem _ he))
      (residuals, readouts) (hsame.trans hresiduals) (hsame'.trans hreadouts)
    have happly : applyError start error = some (residuals, readouts) := by
      rw [applyError, hresiduals', hreadouts']
      rfl
    refine ⟨stop, ?_, hlengths⟩
    rw [foldlM_cons, happly]
    exact hstop

theorem ComponentFits.exists_updatePauliFrame_eq (debugAssertions : Bool) :
    ∃ loads, updatePauliFrame debugAssertions tracker (component.insertionSort (· ≤ ·)) errors =
        loadInOrder debugAssertions tracker loads ∧
      loads.map Prod.fst = component.insertionSort (· ≤ ·) ∧ tracker.Loadable loads := by
  have hmem : ∀ u, u ∈ component.insertionSort (· ≤ ·) ↔ u ∈ component :=
    fun u => (perm_insertionSort (· ≤ ·) component).mem_iff
  have hsome : ((component.insertionSort (· ≤ ·)).mapM fun gid =>
      tracker.gadgets.lookup gid).isSome := by
    rw [isSome_mapM_iff]
    intro gid hgid
    obtain ⟨gadget, hgadget, -⟩ := hfits.raw gid ((hmem gid).mp hgid)
    rw [hgadget]
    rfl
  obtain ⟨gadgets, hmapM⟩ := Option.isSome_iff_exists.mp hsome
  have hgadgets := mapM_eq_some_iff.mp hmapM
  obtain ⟨corrections, hcorrections, hresiduals, hreadouts⟩ :=
    hfits.exists_foldlM_applyError_eq hgadgets errors (fun _ he => he)
      (gadgets.map fun gadget => List.replicate gadget.numOutputObservables false,
        gadgets.map fun gadget => List.replicate gadget.numReadouts false)
      (by simp [Function.comp_def]) (by simp [Function.comp_def])
  let gids := component.insertionSort (· ≤ ·)
  let loads := gids.zip (corrections.1.zip corrections.2)
  have hfirst : loads.map Prod.fst = gids := by
    have hlength₁ := congrArg List.length hresiduals
    have hlength₂ := congrArg List.length hreadouts
    have hlength₃ := hgadgets.length_eq
    rw [length_map, length_map] at hlength₁ hlength₂
    refine map_fst_zip ?_
    rw [length_zip, hlength₁, hlength₂, Nat.min_self]
    exact hlength₃.le
  refine ⟨loads, ?_, hfirst, ⟨?_, ?_, ?_⟩⟩
  · rw [updatePauliFrame, hmapM]
    simp only [hcorrections, Option.bind_eq_bind, Option.bind_some]
    rfl
  · rw [hfirst]
    exact ((perm_insertionSort (· ≤ ·) component).nodup_iff).mpr hfits.nodup
  · intro load hload
    obtain ⟨i, hi, rfl⟩ := mem_iff_getElem.mp hload
    have hzip : i < gids.length ∧ i < corrections.1.length ∧ i < corrections.2.length := by
      simpa [loads] using hi
    obtain ⟨hgid, hi₁, hi₂⟩ := hzip
    have hgadget := hgadgets.get hgid (hgadgets.length_eq ▸ hgid)
    obtain ⟨gadget, hgadget', hraw⟩ := hfits.raw gids[i] ((hmem _).mp (getElem_mem hgid))
    have hlocal : gadgets[i]? = some gadget := by
      rw [List.getElem?_eq_getElem (hgadgets.length_eq ▸ hgid), ← hgadget']
      exact hgadget.symm
    obtain ⟨bits, hbits, hlength⟩ := exists_getElem?_of_map_length_eq hresiduals hlocal
    obtain ⟨bits', hbits', hlength'⟩ := exists_getElem?_of_map_length_eq hreadouts hlocal
    rw [← (List.getElem?_eq_some_iff.mp hbits).2] at hlength
    rw [← (List.getElem?_eq_some_iff.mp hbits').2] at hlength'
    have hvalue : loads[i] = (gids[i], corrections.1[i], corrections.2[i]) := by
      simp only [loads, List.getElem_zip]
    rw [hvalue]
    exact ⟨gadget, hgadget', hraw, hlength', hlength⟩
  · intro load hload
    refine hfits.none load.1 ((hmem load.1).mp ?_)
    change load.1 ∈ gids
    rw [← hfirst]
    exact mem_map_of_mem hload

end ComponentFits

theorem sendReplies_of_nodup {waiting : List ℕ} {updates : List (ℕ × List Bool)}
    (hnodup : (updates.map Prod.fst).Nodup) (hmem : ∀ update ∈ updates, update.1 ∈ waiting) :
    sendReplies waiting updates = some updates := by
  induction updates generalizing waiting with
  | nil => rfl
  | cons update updates ih =>
    rw [map_cons, nodup_cons] at hnodup
    have hrest : sendReplies (waiting.erase update.1) updates = some updates := by
      refine ih hnodup.2 fun update' hupdate' => ?_
      refine (mem_erase_of_ne ?_).mpr (hmem update' (mem_cons_of_mem _ hupdate'))
      intro heq
      exact hnodup.1 (heq ▸ mem_map_of_mem hupdate')
    rw [sendReplies, (Option.guard_eq_some' ()).mpr (hmem update mem_cons_self)]
    simp only [Option.bind_eq_bind, Option.bind_some, hrest]

/-- Every gadget of the component is sent its own readouts once, and no gadget outside has a frame
that it did not have. -/
def CompleteUpdate (debugAssertions : Bool) (tracker : PauliFrameTracker) (component : List ℕ)
    (errors : List ErrorEffect) :
    Prop :=
  ∃ stop, decodeSubgraphFrames debugAssertions tracker component errors = some stop ∧
    stop.2.map Prod.fst = component.insertionSort (· ≤ ·) ∧
      (∀ reply ∈ stop.2, stop.1.readoutsOf reply.1 = some reply.2) ∧
        ∀ v ∉ component, stop.1.frames v = tracker.frames v

/-- The frame update of a component is complete exactly when its identifiers follow the
dependencies and no gadget outside waits for it. -/
theorem completeUpdate_iff {calls : List TrackerCall} (hadmits : new.EveryStep Admits calls)
    {updates : List PauliFrameUpdates} (hrun : new.run calls = some (tracker, updates))
    {component : List ℕ} {errors : List ErrorEffect}
    (hfits : tracker.ComponentFits component errors) (debugAssertions : Bool) :
    CompleteUpdate debugAssertions tracker component errors ↔
      (∀ gid ∈ component, ∀ u, tracker.Ancestor u gid →
        u = gid ∨ (tracker.decodedOf u).isSome ∨ u ∈ component ∧ u < gid) ∧
      ∀ v, (tracker.decodedOf v).isSome → tracker.frames v = none →
        ∃ u, tracker.Ancestor u v ∧ tracker.decodedOf u = none ∧ u ∉ component := by
  obtain ⟨hnew, hsolvesNew⟩ := wellFormed_new
  obtain ⟨stop, hruns⟩ := hnew.exists_runs hsolvesNew hadmits
  obtain rfl := Option.some_inj.mp (hruns.run.symm.trans hrun)
  obtain ⟨order, h⟩ := hruns.wellFormed
  have hsolves := hruns.solves
  obtain ⟨loads, hupdate, hgids, hloadable⟩ := hfits.exists_updatePauliFrame_eq debugAssertions
  have hmem : ∀ u, u ∈ component.insertionSort (· ≤ ·) ↔ u ∈ component :=
    fun u => (perm_insertionSort (· ≤ ·) component).mem_iff
  have hdepends : InOrder tracker.Ancestor tracker.Corrected (component.insertionSort (· ≤ ·)) ↔
      ∀ gid ∈ component, ∀ u, tracker.Ancestor u gid →
        u = gid ∨ (tracker.decodedOf u).isSome ∨ u ∈ component ∧ u < gid := by
    rw [inOrder_iff hfits.sorted]
    simp only [hmem]
    rfl
  have hwaiting : tracker.NoneWaits (component.insertionSort (· ≤ ·)) ↔
      ∀ v, (tracker.decodedOf v).isSome → tracker.frames v = none →
        ∃ u, tracker.Ancestor u v ∧ tracker.decodedOf u = none ∧ u ∉ component := by
    refine forall_congr' fun v => imp_congr_right fun _ => imp_congr_right fun _ =>
      exists_congr fun u => and_congr_right fun _ => ?_
    rw [hmem, Corrected, Option.not_isSome_iff_eq_none]
  rw [← hdepends, ← hwaiting]
  constructor
  · rintro ⟨stop, hstop, hreplies, hreadouts, hsame⟩
    obtain ⟨stop', hstop', hdecode⟩ := Option.bind_eq_some_iff.mp hstop
    obtain ⟨replies, hsent, hdecode⟩ := Option.bind_eq_some_iff.mp hdecode
    obtain rfl := Option.some_inj.mp hdecode
    rw [hupdate] at hstop'
    obtain ⟨hinOrder, hloads⟩ := inOrder_of_loadInOrder h hsolves hloadable hstop'
    rw [hgids] at hinOrder hloads
    refine ⟨hinOrder, fun v hv hnone => ?_⟩
    by_contra hall
    have hframe : (stop'.1.frames v).isSome := by
      obtain ⟨order', hwell⟩ := hloads.wellFormed
      rw [hwell.isSome_frames_iff hloads.solves, hloads.ancestor]
      refine fun u hu => (hloads.corrected u).mpr ?_
      by_contra hnot
      rw [not_or] at hnot
      exact hall ⟨u, hu, hnot⟩
    have hout : v ∉ component := by
      intro hv'
      rw [Corrected, hfits.none v hv'] at hv
      cases hv
    rw [hsame v hout, hnone] at hframe
    cases hframe
  · rintro ⟨hinOrder, hnone⟩
    obtain ⟨stop, hstop, hfirst, hreadouts⟩ := exists_loadInOrder_eq debugAssertions h hsolves
      hloadable (hgids ▸ hinOrder) (hgids ▸ hnone)
    obtain ⟨-, hloads⟩ := inOrder_of_loadInOrder h hsolves hloadable hstop
    rw [hgids] at hfirst hloads
    have hsent : sendReplies component stop.2 = some stop.2 := by
      refine sendReplies_of_nodup (hfirst ▸ hfits.sorted.imp fun hab => hab.ne) ?_
      intro update hupdate'
      rw [← hmem, ← hfirst]
      exact mem_map_of_mem hupdate'
    refine ⟨stop, ?_, hfirst, hreadouts, fun v hv => ?_⟩
    · rw [decodeSubgraphFrames]
      simp only [hupdate, hstop, Option.bind_eq_bind, Option.bind_some, hsent]
    · cases hframe : tracker.frames v with
      | some frame => exact hloads.frames hframe
      | none =>
        by_contra hsome
        obtain ⟨order', hwell⟩ := hloads.wellFormed
        have hall := (hwell.isSome_frames_iff hloads.solves v).mp
          (Option.isSome_iff_ne_none.mpr hsome)
        rw [hloads.ancestor] at hall
        have hv' : tracker.Corrected v := ((hloads.corrected v).mp (hall v .refl)).resolve_right
          fun hmem' => hv ((hmem v).mp hmem')
        obtain ⟨u, hu, hmissing, hout⟩ := hnone v hv' hframe
        exact ((hloads.corrected u).mp (hall u hu)).elim hmissing hout

/-- A type of gadgets with one input and no output, whose readout is the input observable. -/
def measureType : GadgetType where
  inputs := [0]
  outputs := []
  measurementCount := 0
  readoutCount := 1
  correctionPropagation := some ⟨0, 2, [], []⟩
  readoutPropagation := some ⟨1, 2, [0], [0]⟩
  logicalCorrection := some ⟨0, 1, [], []⟩
  physicalCorrection := some ⟨0, 0, [], []⟩

/-- A gadget `first` whose output is measured by a gadget `second`. -/
def measuredPair (first second : ℕ) : List TrackerCall :=
  [.addGadget first isolatedType none (fun _ => some 1) [],
    .addGadget second measureType none (fun _ => some 1) [⟨first, 0⟩],
    .loadRaw first [false] [], .loadRaw second [false] []]

theorem measuredPair_admitted : new.EveryStep Admits (measuredPair 5 3) := by
  refine everyStep_cons ?_ rfl (everyStep_cons ?_ rfl
    (everyStep_cons ?_ rfl (everyStep_cons ?_ rfl trivial)))
  · refine ⟨by decide, isolatedGadget, rfl, ?_⟩
    exact ⟨nodup_nil, by simp [isolatedGadget], rfl, rfl, by simp [isolatedGadget],
      by simp [isolatedGadget, remoteRefs]⟩
  · refine ⟨by decide, _, rfl, nodup_singleton _, ?_, rfl, rfl, ?_, ?_⟩
    · rintro _ (_ | ⟨_, ⟨⟩⟩)
      exact ⟨_, rfl, rfl⟩
    · rintro _ _ ⟨⟩
    · rintro _ ⟨⟩
  · exact ⟨_, rfl, rfl, rfl, rfl⟩
  · exact ⟨_, rfl, rfl, rfl, rfl⟩

/-- A gadget with a greater identifier that feeds the component's other gadget ends the update in
a panic. -/
theorem measuredPair_not_complete : new.EveryStep Admits (measuredPair 5 3) ∧ ∃ updates tracker,
      new.run (measuredPair 5 3) = some (tracker, updates) ∧ tracker.ComponentFits [5, 3] [] ∧
        ¬ CompleteUpdate false tracker [5, 3] [] := by
  refine ⟨measuredPair_admitted, _, _, rfl, ?_, ?_⟩
  · refine ⟨by decide, ?_, by decide, by simp⟩
    rintro gid hgid
    rcases mem_pair.mp hgid with rfl | rfl
    · exact ⟨_, rfl, rfl⟩
    · exact ⟨_, rfl, rfl⟩
  · rintro ⟨stop, hstop, -⟩
    cases hstop

/-- The update of one gadget without inputs is complete. -/
theorem isolatedTracker_complete : CompleteUpdate true (isolatedTracker rawGadget) [1] [] := by
  have hadmits : new.EveryStep Admits (residualReload.take 2) :=
    ⟨residualReload_admitted.1, fun next hnext =>
      ⟨(residualReload_admitted.2 next hnext).1, fun _ _ => trivial⟩⟩
  have hrun : new.run (residualReload.take 2) = some (isolatedTracker rawGadget, [∅, ∅]) := rfl
  have hfits : (isolatedTracker rawGadget).ComponentFits [1] [] := by
    refine ⟨by decide, ?_, by decide, by simp⟩
    rintro gid hgid
    rw [mem_singleton.mp hgid]
    exact ⟨rawGadget, rfl, rfl⟩
  refine (completeUpdate_iff hadmits hrun hfits true).mpr ⟨?_, ?_⟩
  · rintro gid hgid u hu
    rw [mem_singleton.mp hgid] at hu ⊢
    rcases Relation.ReflTransGen.cases_tail hu with heq | ⟨w, -, gadget, hgadget, hw⟩
    · exact .inl heq.symm
    · obtain rfl := Option.some_inj.mp (hgadget.symm.trans (AList.lookup_insert ∅))
      cases hw
  · intro v hv
    have hnone : (isolatedTracker rawGadget).decodedOf v = none := by
      rw [isolatedTracker, decodedOf_insert]
      rcases eq_or_ne v 1 with rfl | hne
      · rfl
      · rw [Function.update_of_ne hne]
        rfl
    rw [hnone] at hv
    cases hv

end PauliFrameTracker

end QdkEc
