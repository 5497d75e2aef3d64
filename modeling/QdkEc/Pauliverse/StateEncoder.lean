import QdkEc.Lib.StabilizerMachine
import QdkEc.Paulimer.CliffordResize

/-!
# State encoders

This module models the helpers that the simulators share: the highest qubit of an
operation, the preimage of an observable and the update of the encoder for a
random outcome.  The update follows the exponential of the observable times the
stabilizer that the pivot encodes.
-/

namespace QdkEc

open PhasedPauli PauliUnitary

/-- The highest qubit of a list. -/
def maxSupport (support : List ℕ) : Option ℕ :=
  support.max?

/-- The highest qubit of two Paulis. -/
def maxPairSupport (a b : PauliUnitary) : Option ℕ :=
  match a.maxSupport, b.maxSupport with
  | none, none => none
  | some id, none => some id
  | none, some id => some id
  | some id1, some id2 => some (max id1 id2)

theorem maxPairSupport_lt_iff {n : ℕ} {a b : PauliUnitary} :
    (∀ id ∈ maxPairSupport a b, id < n) ↔ a.Below n ∧ b.Below n := by
  rw [below_iff_maxSupport, below_iff_maxSupport, maxPairSupport]
  cases a.maxSupport <;> cases b.maxSupport <;> simp

theorem maxSupport_lt_iff {n : ℕ} {support : List ℕ} :
    (∀ id ∈ maxSupport support, id < n) ↔ ∀ q ∈ support, q < n := by
  constructor
  · intro h q hq
    obtain ⟨m, hm⟩ := Option.isSome_iff_exists.mp
      (List.isSome_max?_iff.mpr (List.ne_nil_of_mem hq))
    exact lt_of_le_of_lt ((List.max?_eq_some_iff.mp hm).2 q hq) (h m hm)
  · intro h id hid
    exact h id (List.max?_eq_some_iff.mp hid).1

namespace CliffordUnitary

/-- The preimage of an observable; its first factor is assigned and the others multiplied. -/
def assignCliffordPreimage (clifford : CliffordUnitary) (observable : PauliUnitary) :
    PauliUnitary :=
  let factors := observable.xBits.support.map clifford.preimageXView ++
    observable.zBits.support.map clifford.preimageZView
  let target := match factors with
    | [] => PauliUnitary.neutralElement
    | first :: factors => factors.foldl PauliUnitary.mulAssignRight first.assigned
  target.mulAssignPhaseFrom observable

theorem toPhased_foldl_factors (factors : List PauliUnitary) (target : PauliUnitary) :
    (factors.foldl mulAssignRight target).toPhased =
      target.toPhased * (factors.map toPhased).prod := by
  induction factors generalizing target with
  | nil => simp
  | cons factor factors ih =>
    rw [List.foldl_cons, ih, toPhased_mulAssignRight, List.map_cons, List.prod_cons, mul_assoc]

theorem toPhased_assignCliffordPreimage {C : CliffordUnitary} {observable : PauliUnitary}
    (hp : observable.Below C.numQubits) :
    (C.assignCliffordPreimage observable).toPhased = C.frame.lift observable.toPhased := by
  rw [← toPhased_preimage hp, preimage, mulAssignRightPreimage, assignCliffordPreimage,
    toPhased_mulAssignPhaseFrom, toPhased_mulAssignPhaseFrom]
  congr 1
  have hfactors : ∀ l : List PauliUnitary, (match l with
      | [] => neutralElement
      | first :: factors => factors.foldl mulAssignRight first.assigned).toPhased =
        (l.map toPhased).prod := by
    rintro (_ | ⟨first, factors⟩)
    · rfl
    · simp [toPhased_foldl_factors]
  rw [hfactors, mulAssignRightPreimageZBits, toPhased_foldl_mulAssignRight,
    mulAssignRightPreimageXBits, toPhased_foldl_mulAssignRight]
  simp [Function.comp_def]

def updateAnticommutingGeneratorPreimage (generatorPreimage factor : PauliUnitary)
    (anticommutesWithObservable outcome : Bool) :
    PauliUnitary :=
  let generatorPreimage :=
    if anticommutesWithObservable then generatorPreimage
    else generatorPreimage.mulAssignRight factor
  if outcome then generatorPreimage.addAssignPhaseExp 2 else generatorPreimage

/-- Update an encoder for a measurement with a random outcome, given the preimage of the observable
and a qubit on which it has an `X` component. -/
def updateEncoderForRandomOutcome (encoder : CliffordUnitary) (observable preimage : PauliUnitary)
    (pivot : ℕ) (outcome : Bool) :
    CliffordUnitary :=
  let factor := preimage.mulAssignRightZ pivot
  let zImageSupport := encoder.zImageViewUpToPhase pivot
  let xGenerators := zImageSupport.2.support
  let zGenerators := zImageSupport.1.support
  let encoder := encoder.rewritePreimagesX
    (fun qubit p => updateAnticommutingGeneratorPreimage p factor (observable.zBits.index qubit)
      outcome)
    xGenerators
  let encoder := encoder.rewritePreimagesZ
    (fun qubit p => updateAnticommutingGeneratorPreimage p factor (observable.xBits.index qubit)
      outcome)
    zGenerators
  -- the remaining generators to update anticommute with `observable` but not with `image_z(pivot)`
  let encoder := encoder.rewritePreimagesX (fun _ p => p.mulAssignRight factor)
    (observable.zBits.support.filter (· ∉ xGenerators))
  encoder.rewritePreimagesZ (fun _ p => p.mulAssignRight factor)
    (observable.xBits.support.filter (· ∉ zGenerators))

@[simp]
theorem numQubits_updateEncoderForRandomOutcome (C : CliffordUnitary)
    (observable preimage : PauliUnitary) (pivot : ℕ) (outcome : Bool) :
    (C.updateEncoderForRandomOutcome observable preimage pivot outcome).numQubits =
      C.numQubits := by
  simp [updateEncoderForRandomOutcome]

/-- What the update makes of the preimage of a generator. -/
def randomOutcomePreimage (factor : PhasedPauli) (antiObservable antiImage outcome : Bool)
    (p : PhasedPauli) :
    PhasedPauli :=
  iPow (twist (outcome && antiImage)) * if antiObservable ^^ antiImage then p * factor else p

theorem toPhased_updateAnticommutingGeneratorPreimage (p factor : PauliUnitary)
    (anticommutesWithObservable outcome : Bool) :
    (updateAnticommutingGeneratorPreimage p factor anticommutesWithObservable outcome).toPhased =
      randomOutcomePreimage factor.toPhased anticommutesWithObservable true outcome p.toPhased := by
  have htwo : phaseResidue 2 = 2 := rfl
  cases anticommutesWithObservable <;> cases outcome <;>
    simp [updateAnticommutingGeneratorPreimage, randomOutcomePreimage,
      toPhased_addAssignPhaseExp, htwo]

section Update

variable {C : CliffordUnitary} {observable preimage : PauliUnitary} {pivot : ℕ} {N : PhasedPauli}
variable (hp : observable.Below C.numQubits) (hN : N.Below C.numQubits)
variable (himage : C.zImageViewUpToPhase pivot = (N.xBits, N.zBits))

include hp hN himage

theorem frame_updateEncoderForRandomOutcome (outcome : Bool) (j : ℕ) :
    (C.updateEncoderForRandomOutcome observable preimage pivot outcome).frame.x j =
        randomOutcomePreimage (preimage.mulAssignRightZ pivot).toPhased
          (anti observable.toPhased (X j)) (anti N (X j)) outcome (C.frame.x j) ∧
      (C.updateEncoderForRandomOutcome observable preimage pivot outcome).frame.z j =
        randomOutcomePreimage (preimage.mulAssignRightZ pivot).toPhased
          (anti observable.toPhased (Z j)) (anti N (Z j)) outcome (C.frame.z j) := by
  have hx1 := frame_rewritePreimagesX (C := C)
    (fun q p => toPhased_updateAnticommutingGeneratorPreimage p (preimage.mulAssignRightZ pivot)
      (observable.zBits.index q) outcome)
    N.zBits.nodup_support (fun q hq => lt_of_mem_support hN.2 hq) j
  set C1 := C.rewritePreimagesX _ N.zBits.support with hC1
  have hn1 : C1.numQubits = C.numQubits := numQubits_rewritePreimagesX C _ _
  have hz2 := frame_rewritePreimagesZ (C := C1)
    (fun q p => toPhased_updateAnticommutingGeneratorPreimage p (preimage.mulAssignRightZ pivot)
      (observable.xBits.index q) outcome)
    N.xBits.nodup_support (fun q hq => by
      rw [hn1]
      exact lt_of_mem_support hN.1 hq) j
  set C2 := C1.rewritePreimagesZ _ N.xBits.support with hC2
  have hn2 : C2.numQubits = C.numQubits := (numQubits_rewritePreimagesZ C1 _ _).trans hn1
  have hx3 := frame_rewritePreimagesX (C := C2)
    (γ := fun _ p => p * (preimage.mulAssignRightZ pivot).toPhased)
    (fun _ p => toPhased_mulAssignRight p (preimage.mulAssignRightZ pivot))
    (observable.zBits.nodup_support.filter (· ∉ N.zBits.support)) (fun q hq => by
      rw [hn2]
      exact lt_of_mem_support hp.2 (List.mem_of_mem_filter hq)) j
  set C3 := C2.rewritePreimagesX _ (observable.zBits.support.filter (· ∉ N.zBits.support)) with hC3
  have hn3 : C3.numQubits = C.numQubits := (numQubits_rewritePreimagesX C2 _ _).trans hn2
  have hz4 := frame_rewritePreimagesZ (C := C3)
    (γ := fun _ p => p * (preimage.mulAssignRightZ pivot).toPhased)
    (fun _ p => toPhased_mulAssignRight p (preimage.mulAssignRightZ pivot))
    (observable.xBits.nodup_support.filter (· ∉ N.xBits.support)) (fun q hq => by
      rw [hn3]
      exact lt_of_mem_support hp.1 (List.mem_of_mem_filter hq)) j
  have hupdate : C.updateEncoderForRandomOutcome observable preimage pivot outcome =
      C3.rewritePreimagesZ (fun _ p => p.mulAssignRight (preimage.mulAssignRightZ pivot))
        (observable.xBits.support.filter (· ∉ N.xBits.support)) := by
    rw [updateEncoderForRandomOutcome, himage]
  rw [hupdate]
  constructor
  · rw [hz4.1, hx3.1, hz2.1, hx1.1]
    cases hPj : observable.zBits.index j <;> cases hNj : N.zBits.index j <;>
      simp [randomOutcomePreimage, hPj, hNj]
  · rw [hz4.2, hx3.2, hz2.2, hx1.2]
    cases hPj : observable.xBits.index j <;> cases hNj : N.xBits.index j <;>
      simp [randomOutcomePreimage, hPj, hNj]

end Update

theorem follows_updateEncoderForRandomOutcome {C : CliffordUnitary} (hf : C.frame.Valid)
    {observable : PauliUnitary} (hp : observable.Below C.numQubits)
    (hp2 : observable.toPhased.OrderTwo) {pivot : ℕ} (hpivot : pivot < C.numQubits)
    (hanti : anti (C.imageZ pivot).toPhased observable.toPhased = true) (outcome : Bool) :
    (C.updateEncoderForRandomOutcome observable (C.assignCliffordPreimage observable) pivot
      outcome).frame.Follows C.frame
        (collapse observable.toPhased (C.imageZ pivot).toPhased outcome) := by
  have hz : (PauliUnitary.z pivot).Below C.numQubits := below_Z.mpr hpivot
  have hlift : C.frame.lift (C.imageZ pivot).toPhased = Z pivot := toPhased_imageZ hf hpivot
  have hN2 : (C.imageZ pivot).toPhased.OrderTwo := hf.orderTwo_of_lift (by
    rw [hlift]
    exact orderTwo_Z pivot)
  have hN : (C.imageZ pivot).toPhased.Below C.numQubits := by
    rw [← hf.below_lift_iff C.fixesFrom_frame, hlift]
    exact hz
  have himage : C.zImageViewUpToPhase pivot =
      ((C.imageZ pivot).toPhased.xBits, (C.imageZ pivot).toPhased.zBits) := by
    have h := imageUpToPhase_of_lift hf (PauliUnitary.z pivot) hN hlift
    simpa [imageUpToPhase, PauliUnitary.z] using h
  have hfactor : ((C.assignCliffordPreimage observable).mulAssignRightZ pivot).toPhased =
      C.frame.lift (observable.toPhased * (C.imageZ pivot).toPhased) := by
    rw [hf.lift_mul, hlift, ← toPhased_assignCliffordPreimage hp]
    ext1
    · simp [mulAssignRightZ]
    · simp [mulAssignRightZ]
    · simp [mulAssignRightZ, add_comm]
  have hgenerator : ∀ p, C.frame.lift (uncollapseHom hanti hp2 hN2 outcome p) =
      randomOutcomePreimage
        ((C.assignCliffordPreimage observable).mulAssignRightZ pivot).toPhased
        (anti observable.toPhased p) (anti (C.imageZ pivot).toPhased p) outcome
        (C.frame.lift p) := by
    intro p
    rw [uncollapseHom_apply, uncollapse_eq, hf.lift_iPow_mul, hfactor, randomOutcomePreimage]
    split_ifs
    · rw [hf.lift_mul]
    · rfl
  refine GeneratorFrame.follows_of_hom (ψ := uncollapseHom hanti hp2 hN2 outcome) hf ?_ ?_ ?_ ?_
  · intro k
    rw [uncollapseHom_apply, uncollapse_eq]
    simp
  · intro j
    rw [(frame_updateEncoderForRandomOutcome hp hN himage outcome j).1, hgenerator,
      GeneratorFrame.lift_X]
  · intro j
    rw [(frame_updateEncoderForRandomOutcome hp hN himage outcome j).2, hgenerator,
      GeneratorFrame.lift_Z]
  · intro p
    rw [uncollapseHom_apply, uncollapse_collapse hanti hp2 hN2]

end CliffordUnitary

end QdkEc
