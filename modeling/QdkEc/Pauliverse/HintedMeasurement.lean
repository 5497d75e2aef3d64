import QdkEc.Lib.OptionTraversal
import QdkEc.Paulimer.CliffordLift
import QdkEc.Pauliverse.OutcomeFreeRefinement
import QdkEc.Pauliverse.OutcomeSpecificRefinement
import QdkEc.Pauliverse.RealisedFaults

/-!
# Measurements with a hint

This module compares a measurement with a hint to one without: the update of the
encoder for a random outcome is that of a Pauli exponential and a conditional
Pauli, and no continuation of the circuit can tell the two measurements apart.
-/

namespace QdkEc

open PhasedPauli Option CliffordUnitary PauliUnitary

theorem GeneratorFrame.Follows.unique {f g g' : GeneratorFrame} {φ : PhasedPauli → PhasedPauli}
    (h : g.Follows f φ) (h' : g'.Follows f φ) (hφ : Function.Surjective φ) : g = g' := by
  refine frame_eq_of_lift_eq fun p => ?_
  obtain ⟨q, rfl⟩ := hφ p
  rw [h.lift_map, h'.lift_map]

namespace CliffordUnitary

/-- The update by the Pauli exponential of the observable and the image of the pivot, and by that
image when the outcome is one. -/
def textbookUpdate (encoder : CliffordUnitary) (observable : PauliUnitary) (pivot : ℕ)
    (outcome : Bool) :
    CliffordUnitary :=
  let image := encoder.imageZ pivot
  let encoder := encoder.leftMulPauliExp (hintedPauli observable image (encoder.preimage image))
  if outcome then encoder.leftMulPauli image else encoder

section Textbook

variable {n : ℕ} {C : CliffordUnitary} (h : C.Encodes n) {observable : PauliUnitary}
variable (hp : observable.Below n) {pivot : ℕ}
variable (hpivot : (C.assignCliffordPreimage observable).xBits.support.head? = some pivot)

include h hp hpivot

theorem Encodes.below_imageZ_pivot : (C.imageZ pivot).toPhased.Below n := by
  rw [← h.frame.below_lift_iff h.fixesFrom, h.lift_imageZ_pivot hp hpivot]
  exact below_Z.mpr (h.pivot_lt hp hpivot)

theorem Encodes.toPhased_preimage_imageZ_pivot :
    (C.preimage (C.imageZ pivot)).toPhased = Z pivot := by
  have hbelow := h.below_imageZ_pivot hp hpivot
  rw [CliffordUnitary.toPhased_preimage (h.below hbelow), h.lift_imageZ_pivot hp hpivot]

theorem Encodes.hintStabilizer_imageZ_pivot :
    C.hintStabilizer (C.imageZ pivot) = (C.imageZ pivot).toPhased := by
  have hphase := congrArg PhasedPauli.phase (h.toPhased_preimage_imageZ_pivot hp hpivot)
  rw [toPhased_phase] at hphase
  rw [hintStabilizer, hphase]
  simp

theorem Encodes.follows_textbookUpdate (hp2 : observable.toPhased.OrderTwo) (outcome : Bool) :
    (C.textbookUpdate observable pivot outcome).frame.Follows C.frame
      (collapse observable.toPhased (C.imageZ pivot).toPhased outcome) := by
  have hbelow : (C.imageZ pivot).Below n := h.below_imageZ_pivot hp hpivot
  have hanti : observable.antiCommutesWith (C.imageZ pivot) = true := by
    have himage := h.anti_imageZ_pivot hp hpivot
    rw [anti_comm] at himage
    exact himage
  have hnone : (C.preimage (C.imageZ pivot)).xBits.support.head? = none := by
    rw [head?_support_eq_none_iff, ← toPhased_xBits, h.toPhased_preimage_imageZ_pivot hp hpivot]
    simp
  obtain ⟨hwf, htwo⟩ := h.wellFormed_hintedPauli hp hbelow hanti hnone hp2
  have hexp := follows_leftMulPauliExp h.frame (h.below hwf) (isOrderTwo_iff.mp htwo)
  rw [toPhased_hintedPauli, h.hintStabilizer_imageZ_pivot hp hpivot] at hexp
  cases outcome with
  | false => exact hexp
  | true =>
    have hbelow' := h.below hbelow
    rw [← numQubits_leftMulPauliExp] at hbelow'
    exact (follows_leftMulPauli hexp.valid hbelow').trans hexp

theorem Encodes.updateEncoder_equalsTo_textbookUpdate (hp2 : observable.toPhased.OrderTwo)
    (outcome : Bool) :
    (C.updateEncoderForRandomOutcome observable (C.assignCliffordPreimage observable) pivot
      outcome).equalsTo (C.textbookUpdate observable pivot outcome) = true := by
  obtain ⟨_, hfollows⟩ := h.updateEncoder hp hpivot hp2 outcome
  apply equalsTo_of_frame_eq
  · rw [numQubits_updateEncoderForRandomOutcome]
    unfold textbookUpdate
    cases outcome with
    | false => exact (numQubits_leftMulPauliExp _ _).symm
    | true =>
      rw [if_pos rfl, leftMulPauli_eq_updatePreimages, numQubits_updatePreimages,
        numQubits_leftMulPauliExp]
  · refine hfollows.unique (h.follows_textbookUpdate hp hpivot hp2 outcome) ?_
    exact collapse_surjective (h.anti_imageZ_pivot hp hpivot) hp2
      (h.orderTwo_imageZ_pivot hp hpivot) outcome

end Textbook

end CliffordUnitary

namespace CliffordUnitaryModPauli

/-- The update by the Pauli exponential; a conditional Pauli changes no bit. -/
def textbookUpdate (encoder : CliffordUnitaryModPauli) (observable : PauliUnitaryProjective)
    (pivot : ℕ) :
    CliffordUnitaryModPauli :=
  encoder.leftMulPauliExp (observable.mulAssignRight (encoder.zImageView pivot))

theorem updateEncoder_equalsTo_textbookUpdate {n : ℕ} {D : CliffordUnitaryModPauli}
    (hD : D.ValidOn n) {observable : PauliUnitaryProjective} (hp : observable.Below n) {pivot : ℕ}
    (hpivot : (D.assignCliffordPreimage observable).xBits.support.head? = some pivot) :
    (D.updateEncoderForRandomOutcome observable (D.assignCliffordPreimage observable)
      pivot).equalsTo (D.textbookUpdate observable pivot) = true := by
  have hlift := validOn_hermitianLift hD
  have hn : D.hermitianLift.numQubits = n := hlift.numQubits_eq
  have hencodes : D.hermitianLift.Encodes n := by
    refine ⟨hlift.frame, ?_, hn.ge⟩
    rw [← hn]
    exact D.hermitianLift.fixesFrom_frame
  have hpreimage := projective_assignCliffordPreimage D.hermitianLift
    observable.hermitian
  have hpivot' : (D.hermitianLift.assignCliffordPreimage
      observable.hermitian).xBits.support.head? = some pivot := by
    have hx := congrArg PauliUnitaryProjective.xBits hpreimage
    exact (congrArg (·.support.head?) hx).trans hpivot
  have hbelow : observable.hermitian.Below n := hp
  have hequal := hencodes.updateEncoder_equalsTo_textbookUpdate hbelow hpivot'
    (isOrderTwo_iff.mp (PauliUnitaryProjective.isOrderTwo_hermitian observable)) false
  have hbits := (Bool.and_eq_true_iff.mp hequal).2
  have hleft := projective_updateEncoderForRandomOutcome D.hermitianLift
    observable.hermitian (D.hermitianLift.assignCliffordPreimage observable.hermitian) pivot false
  rw [hpreimage] at hleft
  have hright : (D.hermitianLift.textbookUpdate observable.hermitian pivot false).projective =
      D.textbookUpdate observable pivot := by
    refine (projective_leftMulPauliExp D.hermitianLift _).trans ?_
    have himage := projective_imageZ D.hermitianLift pivot
    rw [projective_hermitianLift] at himage
    rw [textbookUpdate, ← himage]
    rfl
  rw [← hright, show D.updateEncoderForRandomOutcome observable (D.assignCliffordPreimage
    observable) pivot = _ from hleft.symm]
  exact hbits

end CliffordUnitaryModPauli

variable {ops : List SimulationOp}

namespace OutcomeCompleteSimulation

/-- What the capacities requested for the next outcome depend on. -/
def record (c : OutcomeCompleteSimulation) : AlignedBitMatrix × List Bool × ℕ :=
  (c.outcomeMatrix, c.outcomeIntroducesBranchBit, c.branchBitCount)

/-- The capacities of the outcomes and of the branch bits. -/
def capacities (c : OutcomeCompleteSimulation) : ℕ × ℕ :=
  (c.outcomeCapacity, c.branchBitCapacity)

/-- The capacities after the next outcome. -/
def grownCapacities (c : OutcomeCompleteSimulation) (randomOutcome : Bool) : ℕ × ℕ :=
  (c.newOutcomeCapacity, c.newBranchBitCapacity randomOutcome)

/-- A state comes from another one by recording at most one outcome. -/
def Records (c c' : OutcomeCompleteSimulation) : Prop :=
  ∃ random : Option Bool,
    c'.outcomeIntroducesBranchBit = c.outcomeIntroducesBranchBit ++ random.toList ∧
      c'.capacities = random.elim c.capacities c.grownCapacities

variable {c c' d : OutcomeCompleteSimulation}

theorem Records.congr {d' : OutcomeCompleteSimulation} (h : c.Records c')
    (hc : d.record = c.record) (hc' : d'.record = c'.record) : d.Records d' := by
  obtain ⟨random, hindicators, hcapacities⟩ := h
  simp only [record, Prod.mk.injEq] at hc hc'
  obtain ⟨hmatrix, hlist, hcount⟩ := hc
  obtain ⟨hmatrix', hlist', _⟩ := hc'
  refine ⟨random, by rw [hlist', hlist, hindicators], ?_⟩
  have hd' : d'.capacities = c'.capacities := by
    rw [capacities, outcomeCapacity, branchBitCapacity, hmatrix']
    rfl
  have hd : d.capacities = c.capacities := by
    rw [capacities, outcomeCapacity, branchBitCapacity, hmatrix]
    rfl
  have hgrown : d.grownCapacities = c.grownCapacities := by
    funext random
    simp only [grownCapacities, newOutcomeCapacity, newBranchBitCapacity, outcomeCapacity,
      branchBitCapacity, outcomeCount, hmatrix, hlist, hcount]
    rfl
  rw [hd', hd, hgrown, hcapacities]

theorem records_of_record_eq (h : c'.record = c.record) :
    c.Records c' :=
  Records.congr ⟨none, (List.append_nil _).symm, rfl⟩ rfl h

theorem record_ensureQubitCapacity {maxQubitId : Option ℕ}
    (h : c.ensureQubitCapacity maxQubitId = some c') : c'.record = c.record := by
  cases maxQubitId with
  | none =>
    obtain rfl := some_inj.mp h
    rfl
  | some id =>
    simp only [ensureQubitCapacity, reserveQubits] at h
    split_ifs at h
    · obtain ⟨C, _, hs⟩ := bind_eq_some_iff.mp h
      obtain rfl := some_inj.mp hs
      rfl
    · obtain rfl := some_inj.mp h
      rfl
    · obtain rfl := some_inj.mp h
      rfl

theorem record_unitary {op : CliffordOp}
    (h : c.unitary op = some c') : c'.record = c.record := by
  obtain ⟨c₁, hensure, happly⟩ := bind_eq_some_iff.mp h
  obtain ⟨C, _, hs⟩ := bind_eq_some_iff.mp happly
  obtain rfl := some_inj.mp hs
  have hrecord : c₁.record = c.record := record_ensureQubitCapacity hensure
  exact hrecord

theorem capacities_ensureOutcomeCapacity {randomOutcome : Bool}
    (h : c.ensureOutcomeCapacity randomOutcome = some c') :
    c'.capacities = c.grownCapacities randomOutcome ∧
      c'.outcomeIntroducesBranchBit = c.outcomeIntroducesBranchBit := by
  have hrows := c.outcomeCapacity_le_newOutcomeCapacity
  have hcolumns := c.branchBitCapacity_le_newBranchBitCapacity randomOutcome
  unfold ensureOutcomeCapacity reserveOutcomes at h
  split_ifs at h
  obtain rfl := some_inj.mp h
  obtain ⟨hrowCount, hcolumnCount⟩ := AlignedBitMatrix.counts_resize c.outcomeMatrix
    (le_max_right c.newOutcomeCapacity c.outcomeCapacity)
    (max (c.newBranchBitCapacity randomOutcome) c.branchBitCapacity)
  refine ⟨Prod.ext ?_ ?_, rfl⟩
  · exact hrowCount.trans (max_eq_left hrows)
  · exact hcolumnCount.trans (max_eq_left hcolumns)

theorem records_allocateBranchBit
    {allocated : OutcomeCompleteSimulation × BranchBitLocation}
    (h : c.allocateBranchBit = some allocated) : c.Records allocated.1 := by
  obtain ⟨c₁, hensure, hs⟩ := bind_eq_some_iff.mp h
  obtain ⟨hcapacities, hindicators⟩ := capacities_ensureOutcomeCapacity hensure
  obtain rfl := some_inj.mp hs
  refine ⟨some true, congrArg (· ++ [true]) hindicators, ?_⟩
  rw [elim_some, ← hcapacities]
  rfl

theorem records_measure {observable : PauliUnitary}
    (h : c.measure observable = some c') : c.Records c' := by
  obtain ⟨c₁, hensure, hs⟩ := bind_eq_some_iff.mp h
  refine Records.congr ?_ (record_ensureQubitCapacity hensure).symm rfl
  cases hpivot : (c₁.clifford.assignCliffordPreimage observable).xBits.support.head? with
  | some pivot =>
    simp only [hpivot] at hs
    obtain ⟨allocated, hallocate, hs⟩ := bind_eq_some_iff.mp hs
    obtain rfl := some_inj.mp hs
    exact records_allocateBranchBit hallocate
  | none =>
    simp only [hpivot] at hs
    obtain ⟨c₂, hroom, hs⟩ := bind_eq_some_iff.mp hs
    obtain ⟨hcapacities, hindicators⟩ := capacities_ensureOutcomeCapacity hroom
    obtain rfl := some_inj.mp hs
    refine ⟨some false, congrArg (· ++ [false]) hindicators, ?_⟩
    rw [elim_some, ← hcapacities]
    rfl

theorem records_apply {op : SimulationOp}
    (h : c.apply op = some c') : c.Records c' := by
  cases op with
  | unitary op => exact records_of_record_eq (record_unitary h)
  | conditionalPauli observable outcomes parity =>
    obtain ⟨c₁, hensure, hs⟩ := bind_eq_some_iff.mp h
    obtain ⟨control, _, hs⟩ := bind_eq_some_iff.mp hs
    have hrecord := record_ensureQubitCapacity hensure
    split_ifs at hs
    · obtain ⟨c₂, hunitary, hs⟩ := bind_eq_some_iff.mp hs
      obtain rfl := some_inj.mp hs
      exact records_of_record_eq ((record_unitary hunitary).trans hrecord)
    · obtain rfl := some_inj.mp hs
      exact records_of_record_eq hrecord
  | measure observable => exact records_measure h
  | measureWithHint observable hint =>
    obtain ⟨c₁, hensure, hs⟩ := bind_eq_some_iff.mp h
    refine Records.congr ?_ (record_ensureQubitCapacity hensure).symm rfl
    split_ifs at hs
    cases hpivot : (c₁.clifford.preimage hint).xBits.support.head? with
    | some pivot =>
      simp only [hpivot] at hs
      exact records_measure hs
    | none =>
      simp only [hpivot] at hs
      obtain ⟨c₂, hunitary, hs⟩ := bind_eq_some_iff.mp hs
      obtain ⟨allocated, hallocate, hs⟩ := bind_eq_some_iff.mp hs
      obtain rfl := some_inj.mp hs
      exact (records_allocateBranchBit hallocate).congr (record_unitary hunitary).symm rfl
  | allocateRandomBit =>
    obtain ⟨allocated, hallocate, rfl⟩ := map_eq_some_iff.mp h
    exact records_allocateBranchBit hallocate

/-- Two states stand for the same machine in every branch and have the same capacities. -/
structure Agrees (c d : OutcomeCompleteSimulation) : Prop where
  left : ∃ n, c.Invariant n
  right : ∃ n, d.Invariant n
  machine_eq : ∀ r, c.machine r = d.machine r
  capacities_eq : c.capacities = d.capacities

section Agrees

variable {c d : OutcomeCompleteSimulation} (h : c.Agrees d)

include h

theorem Agrees.indicators_eq : c.outcomeIntroducesBranchBit = d.outcomeIntroducesBranchBit :=
  congrArg (·.introducesBranchBit) (h.machine_eq 0)

theorem Agrees.branchBitCount_eq : c.branchBitCount = d.branchBitCount := by
  obtain ⟨n, hc⟩ := h.left
  obtain ⟨m, hd⟩ := h.right
  rw [hc.branchBitCount_eq, hd.branchBitCount_eq, h.indicators_eq]

theorem Agrees.grownCapacities_eq : c.grownCapacities = d.grownCapacities := by
  have hcount : c.outcomeCount = d.outcomeCount := congrArg List.length h.indicators_eq
  obtain ⟨hrows, hcolumns⟩ := Prod.mk.inj h.capacities_eq
  funext random
  simp only [grownCapacities, newOutcomeCapacity, newBranchBitCapacity, hcount, hrows, hcolumns,
    h.branchBitCount_eq]

theorem Agrees.reserveOk_iff (randomOutcome : Bool) :
    c.ReserveOk randomOutcome ↔ d.ReserveOk randomOutcome := by
  obtain ⟨houtcomes, hbits⟩ := Prod.mk.inj (congrFun h.grownCapacities_eq randomOutcome)
  rw [ReserveOk, ReserveOk, houtcomes, hbits]

theorem Agrees.recordsOk_iff (op : SimulationOp) : c.RecordsOk op ↔ d.RecordsOk op := by
  have hmeasure : ∀ P, c.MeasureOk P ↔ d.MeasureOk P := by
    intro P
    rw [MeasureOk, MeasureOk, h.machine_eq, h.reserveOk_iff, h.reserveOk_iff]
  cases op with
  | unitary op => exact Iff.rfl
  | conditionalPauli observable outcomes parity => exact Iff.rfl
  | measure observable => exact hmeasure _
  | measureWithHint observable hint => exact hmeasure _
  | allocateRandomBit => exact h.reserveOk_iff true

theorem Agrees.of_records {c' d' : OutcomeCompleteSimulation} (hc : c.Records c')
    (hd : d.Records d') (hleft : ∃ n, c'.Invariant n) (hright : ∃ n, d'.Invariant n)
    (hmachine : ∀ r, c'.machine r = d'.machine r) : c'.Agrees d' := by
  refine ⟨hleft, hright, hmachine, ?_⟩
  obtain ⟨random, hindicators, hcapacities⟩ := hc
  obtain ⟨random', hindicators', hcapacities'⟩ := hd
  have hlist : c'.outcomeIntroducesBranchBit = d'.outcomeIntroducesBranchBit :=
    congrArg (·.introducesBranchBit) (hmachine 0)
  rw [hindicators, hindicators', h.indicators_eq] at hlist
  have hrandom : random = random' := by
    cases random <;> cases random' <;> simp_all
  rw [hcapacities, hcapacities', hrandom, h.capacities_eq, h.grownCapacities_eq]

/-- One operation keeps the agreement, also about whether it panics. -/
theorem Agrees.apply {op : SimulationOp} (hop : op.WellFormed c.outcomeCount) :
    Option.Rel (fun c' d' => c'.Agrees d' ∧ c'.outcomeCount = c.outcomeCount + op.outcomeCount)
      (c.apply op) (d.apply op) := by
  obtain ⟨n, hc⟩ := h.left
  obtain ⟨m, hd⟩ := h.right
  have hop' : op.WellFormed d.outcomeCount := by
    rw [outcomeCount, ← h.indicators_eq]
    exact hop
  by_cases hrecords : c.RecordsOk op
  · obtain ⟨c', happly, hc', hmachine, _⟩ := hc.apply hop hrecords
    obtain ⟨d', happly', hd', hmachine', _⟩ := hd.apply hop' ((h.recordsOk_iff op).mp hrecords)
    have hagrees := h.of_records (records_apply happly) (records_apply happly') ⟨_, hc'⟩
      ⟨_, hd'⟩ fun r => by rw [hmachine, hmachine', h.machine_eq]
    rw [happly, happly']
    exact .some ⟨hagrees, outcomeCount_step hmachine⟩
  · rw [hc.apply_eq_none hop hrecords,
      hd.apply_eq_none hop' (fun hok => hrecords ((h.recordsOk_iff op).mpr hok))]
    exact .none

end Agrees

/-- A circuit keeps the agreement, also about whether it panics. -/
theorem Agrees.run (h : c.Agrees d)
    (hops : SimulationOp.WellFormedFrom c.outcomeCount ops) :
    Option.Rel Agrees (run ops c) (run ops d) := by
  induction ops generalizing c d with
  | nil => exact .some h
  | cons op ops ih =>
    refine rel_bind (h.apply hops.1) fun c' d' hstep => ?_
    obtain ⟨hagrees, hcount⟩ := hstep
    exact ih hagrees (hcount ▸ hops.2)

theorem Invariant.rel_measureWithHint {n : ℕ} (h : c.Invariant n)
    {observable hint : PauliUnitary} (hp2 : observable.isOrderTwo = true)
    (hanti : observable.antiCommutesWith hint = true) :
    Option.Rel (fun c' d' => c'.Agrees d' ∧ c'.outcomeCount = c.outcomeCount + 1)
      (c.measure observable) (c.measureWithHint observable hint) := by
  have hself : c.Agrees c := ⟨⟨n, h⟩, ⟨n, h⟩, fun _ => rfl, rfl⟩
  have htwo := isOrderTwo_iff.mp hp2
  by_cases hok : c.MeasureOk observable.toPhased
  · obtain ⟨c', hmeasure, hc', hmachine, _⟩ := h.measure htwo hok
    obtain ⟨d', hhinted, hd', hmachine', _⟩ := h.measureWithHint htwo hanti hok
    have hrecords : c.Records d' :=
      records_apply (show c.apply (.measureWithHint observable hint) = some d' from hhinted)
    have hagrees := hself.of_records (records_measure hmeasure) hrecords ⟨_, hc'⟩ ⟨_, hd'⟩
      fun r => by rw [hmachine, hmachine']
    have hstep : ∀ r, c'.machine r = SimulationOp.step r.index (c.machine r)
      (.measure observable) :=
      hmachine
    rw [hmeasure, hhinted]
    exact .some ⟨hagrees, outcomeCount_step hstep⟩
  · rw [h.measure_eq_none htwo hok, h.measureWithHint_eq_none htwo hanti hok]
    exact .none

/-- Two states have the same outcomes in every branch, and so the same joint distribution. -/
structure SameOutcomes (c d : OutcomeCompleteSimulation) : Prop where
  indicators_eq : c.outcomeIntroducesBranchBit = d.outcomeIntroducesBranchBit
  outcomeVector_eq : ∀ r, c.outcomeVector r = d.outcomeVector r
  probability_eq : ∀ vector, c.probability vector = d.probability vector

theorem Agrees.sameOutcomes (h : c.Agrees d) :
    c.SameOutcomes d := by
  have houtcomes : c.outcomeVector = d.outcomeVector :=
    funext fun r => congrArg (·.outcomes) (h.machine_eq r)
  refine ⟨h.indicators_eq, congrFun houtcomes, fun vector => ?_⟩
  rw [probability, probability, houtcomes, h.branchBitCount_eq]

end OutcomeCompleteSimulation

theorem SimulationOp.InUseFrom.mono {m n : ℕ} (h : SimulationOp.InUseFrom m ops) (hmn : m ≤ n) :
    SimulationOp.InUseFrom n ops := by
  induction ops generalizing m n with
  | nil => trivial
  | cons op ops ih =>
    refine ⟨?_, ih h.2 (max_le_max_right _ hmn)⟩
    cases op with
    | conditionalPauli observable outcomes parity => exact PhasedPauli.Below.mono h.1 hmn
    | _ => trivial

namespace OutcomeSpecificSimulation

/-- Two states have the same outcomes, for the same random bits. -/
structure SameOutcomes (s t : OutcomeSpecificSimulation) : Prop where
  indicators_eq : s.outcomeIntroducesBranchBit = t.outcomeIntroducesBranchBit
  outcomeVector_eq : s.outcomeVector = t.outcomeVector

theorem sameOutcomes_of_machine_eq {s t : OutcomeSpecificSimulation} (h : s.machine = t.machine) :
    s.SameOutcomes t :=
  ⟨congrArg (·.introducesBranchBit) h, congrArg (·.outcomes) h⟩

theorem sameOutcomes_of_continuations {bits : ℕ → Bool} {m n : ℕ} {s t : OutcomeSpecificSimulation}
    (hs : s.Invariant bits m) (ht : t.Invariant bits n) (hmachine : s.machine = t.machine)
    (hops : SimulationOp.WellFormedFrom s.outcomeCount ops) :
    (∀ s' t', run ops s = some s' → run ops t = some t' → s'.SameOutcomes t') ∧
      (SimulationOp.InUseFrom m ops → SimulationOp.InUseFrom n ops →
        Option.Rel SameOutcomes (run ops s) (run ops t)) := by
  have hcount : s.outcomeCount = t.outcomeCount :=
    congrArg (·.introducesBranchBit.length) hmachine
  have hops' : SimulationOp.WellFormedFrom t.outcomeCount ops := hcount ▸ hops
  constructor
  · intro s' t' hrun hrun'
    apply sameOutcomes_of_machine_eq
    rw [(hs.of_run hops hrun).2, (ht.of_run hops' hrun').2, hmachine]
  · intro hinUse hinUse'
    obtain ⟨s', hrun, _, hsteps⟩ := hs.run hops hinUse
    obtain ⟨t', hrun', _, hsteps'⟩ := ht.run hops' hinUse'
    rw [hrun, hrun']
    refine .some (sameOutcomes_of_machine_eq ?_)
    rw [hsteps, hsteps', hmachine]

end OutcomeSpecificSimulation

/-- A hint makes no difference.  In every reachable state of the outcome-complete simulation the
measurements with and without a hint have the same outcomes in every branch of every continuation,
panics included; in the outcome-specific one they have the same outcomes whenever both continuations
return, which they do when the conditional Paulis act on qubits in use.  The update of every valid
encoder for a random outcome is the textbook update. -/
theorem measureWithHint_indistinguishable (qubitCount outcomeCount branchBitCount : ℕ)
    (ops : List SimulationOp) (hops : SimulationOp.WellFormedFrom 0 ops)
    (observable hint : PauliUnitary) (hp2 : observable.isOrderTwo = true)
    (hanti : observable.antiCommutesWith hint = true) (continuation : List SimulationOp) :
    (∀ c, OutcomeCompleteSimulation.run ops (OutcomeCompleteSimulation.withCapacity qubitCount
          outcomeCount branchBitCount) = some c →
        SimulationOp.WellFormedFrom (c.outcomeCount + 1) continuation →
          Option.Rel OutcomeCompleteSimulation.SameOutcomes
            ((c.measure observable).bind (OutcomeCompleteSimulation.run continuation))
            ((c.measureWithHint observable hint).bind
              (OutcomeCompleteSimulation.run continuation))) ∧
      (∀ bits s, OutcomeSpecificSimulation.run ops
          (OutcomeSpecificSimulation.newWithBitSource qubitCount bits) = some s →
        SimulationOp.WellFormedFrom (s.outcomeCount + 1) continuation →
          (∀ s₁ s₂, (s.measure observable).bind
              (OutcomeSpecificSimulation.run continuation) = some s₁ →
            (s.measureWithHint observable hint).bind
              (OutcomeSpecificSimulation.run continuation) = some s₂ → s₁.SameOutcomes s₂) ∧
          (SimulationOp.InUseFrom (max s.qubitCount (qubitBound observable.maxSupport))
              continuation → Option.Rel OutcomeSpecificSimulation.SameOutcomes
              ((s.measure observable).bind (OutcomeSpecificSimulation.run continuation))
              ((s.measureWithHint observable hint).bind
                (OutcomeSpecificSimulation.run continuation)))) ∧
      (∀ (n : ℕ) (C : CliffordUnitary), C.ValidOn n → observable.Below n →
        ∀ pivot, (C.assignCliffordPreimage observable).xBits.support.head? = some pivot →
          ∀ outcome, (C.updateEncoderForRandomOutcome observable
            (C.assignCliffordPreimage observable) pivot outcome).equalsTo
              (C.textbookUpdate observable pivot outcome) = true) ∧
      ∀ (n : ℕ) (D : CliffordUnitaryModPauli), D.ValidOn n → observable.projective.Below n →
        ∀ pivot, (D.assignCliffordPreimage observable.projective).xBits.support.head? = some pivot →
          (D.updateEncoderForRandomOutcome observable.projective
            (D.assignCliffordPreimage observable.projective) pivot).equalsTo
              (D.textbookUpdate observable.projective pivot) = true := by
  have htwo := isOrderTwo_iff.mp hp2
  refine ⟨fun c hrun hcontinuation => ?_, fun bits s hrun hcontinuation => ?_,
    fun n C hC hp pivot hpivot outcome => ?_, fun n D hD hp pivot hpivot =>
      CliffordUnitaryModPauli.updateEncoder_equalsTo_textbookUpdate hD hp hpivot⟩
  · have hc := (OutcomeCompleteSimulation.invariant_withCapacity qubitCount outcomeCount
      branchBitCount).of_run hops hrun
    refine rel_bind (hc.rel_measureWithHint hp2 hanti) fun c' d' hstep => ?_
    obtain ⟨hagrees, hcount⟩ := hstep
    rw [← hcount] at hcontinuation
    exact rel_mono (hagrees.run hcontinuation) fun _ _ hend => hend.sameOutcomes
  · obtain ⟨⟨m, hs⟩, _⟩ := (OutcomeSpecificSimulation.invariant_newWithBitSource qubitCount
      bits).of_run hops hrun
    obtain ⟨s₁, hmeasure, hs₁, hmachine₁⟩ := hs.measure hp2
    obtain ⟨s₂, hhinted, hs₂, hmachine₂⟩ := hs.measureWithHint hp2 hanti
    have hstep : s₁.machine = SimulationOp.step bits s.machine (.measure observable) := hmachine₁
    have hcount := OutcomeSpecificSimulation.outcomeCount_step hstep
    obtain ⟨hsame, hreturn⟩ := OutcomeSpecificSimulation.sameOutcomes_of_continuations hs₁ hs₂
      (hmachine₁.trans hmachine₂.symm) (hcount ▸ hcontinuation)
    rw [hmeasure, hhinted]
    refine ⟨hsame, fun hinUse => hreturn (hinUse.mono ?_) (hinUse.mono ?_)⟩
    · exact max_le_max_right _ hs.qubitCount_le
    · obtain ⟨hp, _⟩ := maxPairSupport_lt_iff.mp (qubitBound_le_iff.mp
        (le_refl (qubitBound (maxPairSupport observable hint))))
      exact max_le_max hs.qubitCount_le (qubitBound_le_iff.mpr
        (below_iff_maxSupport.mp hp))
  · refine CliffordUnitary.Encodes.updateEncoder_equalsTo_textbookUpdate (n := n)
      ⟨hC.frame, ?_, hC.numQubits_eq.ge⟩ hp hpivot htwo outcome
    have hfix := C.fixesFrom_frame
    rw [hC.numQubits_eq] at hfix
    exact hfix

/-- The first qubit is measured along `X` with its stabilizer `Z` as the hint, and flipped back. -/
theorem measureWithHint_indistinguishable_on_feedForward :
    let continuation := [SimulationOp.conditionalPauli (PauliUnitary.z 0) [0] true,
      SimulationOp.measure (PauliUnitary.x 0)]
    Option.Rel OutcomeCompleteSimulation.SameOutcomes
        (((OutcomeCompleteSimulation.withCapacity 1 0 0).measure (PauliUnitary.x 0)).bind
          (OutcomeCompleteSimulation.run continuation))
        (((OutcomeCompleteSimulation.withCapacity 1 0 0).measureWithHint (PauliUnitary.x 0)
          (PauliUnitary.z 0)).bind (OutcomeCompleteSimulation.run continuation)) ∧
      (∀ bits, Option.Rel OutcomeSpecificSimulation.SameOutcomes
        (((OutcomeSpecificSimulation.newWithBitSource 1 bits).measure (PauliUnitary.x 0)).bind
          (OutcomeSpecificSimulation.run continuation))
        (((OutcomeSpecificSimulation.newWithBitSource 1 bits).measureWithHint (PauliUnitary.x 0)
          (PauliUnitary.z 0)).bind (OutcomeSpecificSimulation.run continuation))) ∧
      ((CliffordUnitary.identity 1).updateEncoderForRandomOutcome (PauliUnitary.x 0)
        ((CliffordUnitary.identity 1).assignCliffordPreimage (PauliUnitary.x 0)) 0 true).equalsTo
          ((CliffordUnitary.identity 1).textbookUpdate (PauliUnitary.x 0) 0 true) = true := by
  intro continuation
  obtain ⟨hcomplete, hspecific, hupdate, _⟩ := measureWithHint_indistinguishable 1 0 0 []
    trivial (PauliUnitary.x 0) (PauliUnitary.z 0) (by decide) (by decide) continuation
  refine ⟨hcomplete _ rfl (by decide), fun bits => ?_, ?_⟩
  · have hwf : SimulationOp.WellFormedFrom (0 + 1) continuation := by decide
    have hinUse : SimulationOp.InUseFrom 1 continuation := by decide
    exact (hspecific bits _ rfl hwf).2 hinUse
  · exact hupdate 1 (CliffordUnitary.identity 1) (validOn_identity 1) (by decide) 0
      (by decide) true

/-- The specific simulation does not take the qubits of a conditional Pauli into use: with the hint
the tableau has grown to its qubit, without it the row is out of range. -/
theorem not_measureWithHint_indistinguishable :
    let s := OutcomeSpecificSimulation.newWithBitSource 1 fun _ => true
    let hint := (PauliUnitary.z 0).mulAssignRight (PauliUnitary.z 1)
    let continuation := [SimulationOp.conditionalPauli (PauliUnitary.x 1) [0] true]
    (PauliUnitary.x 0).isOrderTwo = true ∧ (PauliUnitary.x 0).antiCommutesWith hint = true ∧
      SimulationOp.WellFormedFrom (s.outcomeCount + 1) continuation ∧
        ((s.measure (PauliUnitary.x 0)).bind
          (OutcomeSpecificSimulation.run continuation)).isSome = false ∧
        ((s.measureWithHint (PauliUnitary.x 0) hint).bind
          (OutcomeSpecificSimulation.run continuation)).isSome = true := by
  decide

end QdkEc
