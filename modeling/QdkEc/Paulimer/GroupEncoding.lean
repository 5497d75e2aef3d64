import QdkEc.Lib.PauliPlacement
import QdkEc.Lib.StabilizerGroup
import QdkEc.Paulimer.CliffordAction
import QdkEc.Paulimer.CliffordGroup
import QdkEc.Paulimer.PauliGroup

/-!
# Encoders of Pauli groups

This module models `group_encoding_clifford_of`: every generator is moved by a
root of `X` and a Pauli exponential onto `Z` of a fresh pivot qubit, and a final
permutation brings the pivots to the front.  The loop keeps the current images
of all generators, and the images handled so far are placed on the pivots.
-/

namespace QdkEc

open PhasedPauli PauliVector List CliffordUnitary Bits

namespace PauliUnitary

def mulAssignLeftZ (p : PauliUnitary) (qubit : ℕ) : PauliUnitary where
  xBits := p.xBits
  zBits := Bits.unit qubit + p.zBits
  xzPhaseExp := if p.xBits.index qubit then p.xzPhaseExp + 2 else p.xzPhaseExp

def applyRootX (qubitIndex : ℕ) (target : PauliUnitary) : PauliUnitary :=
  if target.zBits.index qubitIndex then (target.mulAssignLeftX qubitIndex).addAssignPhaseExp 3
  else target

def applyPauliExponent (exponent target : PauliUnitary) : PauliUnitary :=
  if target.antiCommutesWith exponent then (target.mulAssignLeft exponent).addAssignPhaseExp 1
  else target

/-- Keep the factors of a Pauli on a set of qubits, and its phase. -/
def denseRestrictionOf (pauli : PauliUnitary) (support : List ℕ) : PauliUnitary where
  xBits := Bits.fromIndices (pauli.xBits.support.filter fun index => support.contains index)
  zBits := Bits.fromIndices (pauli.zBits.support.filter fun index => support.contains index)
  xzPhaseExp := phaseValue pauli.xzPhaseExp

/-- Every two of the Paulis commute. -/
def areMutuallyCommuting (paulis : List PauliUnitary) : Bool :=
  (List.range paulis.length).all fun i =>
    (List.range i).all fun j =>
      !(paulis.getD i neutralElement).antiCommutesWith (paulis.getD j neutralElement)

theorem toPhased_mulAssignLeftX (p : PauliUnitary) (q : ℕ) :
    (p.mulAssignLeftX q).toPhased = X q * p.toPhased := by
  ext1 <;> simp [mulAssignLeftX]

theorem toPhased_mulAssignLeftZ (p : PauliUnitary) (q : ℕ) :
    (p.mulAssignLeftZ q).toPhased = Z q * p.toPhased := by
  ext1
  · cases h : p.xBits.index q with
    | false => simp [mulAssignLeftZ, h]
    | true =>
      simp only [mulAssignLeftZ, h, if_true, toPhased_phase, phaseResidue_add, mul_phase, Z_phase,
        Z_zBits, toPhased_xBits, dot_unit_left, twist_true, zero_add]
      rfl
  · simp [mulAssignLeftZ]
  · simp [mulAssignLeftZ]

theorem toPhased_applyRootX (q : ℕ) (target : PauliUnitary) :
    (applyRootX q target).toPhased = pauliExp (iPow 2 * X q) target.toPhased := by
  unfold applyRootX
  cases h : target.zBits.index q with
  | false =>
    rw [pauliExp_of_not_anti (by simp [h])]
    rfl
  | true =>
    rw [pauliExp_of_anti (by simp [h]), if_pos rfl, toPhased_addAssignPhaseExp,
      toPhased_mulAssignLeftX, mul_assoc, ← mul_assoc (iPow 1), ← iPow_add]
    rfl

theorem toPhased_applyPauliExponent (exponent target : PauliUnitary) :
    (applyPauliExponent exponent target).toPhased = pauliExp exponent.toPhased target.toPhased := by
  unfold applyPauliExponent
  rw [antiCommutesWith_eq, anti_comm]
  cases h : anti exponent.toPhased target.toPhased with
  | false =>
    rw [pauliExp_of_not_anti h]
    rfl
  | true =>
    rw [pauliExp_of_anti h, if_pos rfl, toPhased_addAssignPhaseExp, toPhased_mulAssignLeft]
    rfl

theorem index_denseRestrictionOf (pauli : PauliUnitary) (support : List ℕ) (i : ℕ) :
    (pauli.denseRestrictionOf support).xBits.index i =
        (pauli.xBits.index i && decide (i ∈ support)) ∧
      (pauli.denseRestrictionOf support).zBits.index i =
        (pauli.zBits.index i && decide (i ∈ support)) := by
  constructor <;> simp [denseRestrictionOf, Bool.decide_and]

theorem areMutuallyCommuting_of {paulis : List PauliUnitary}
    (h : ∀ p ∈ paulis, ∀ q ∈ paulis, p.commutesWith q = true) :
    areMutuallyCommuting paulis = true := by
  unfold areMutuallyCommuting
  simp only [all_eq_true, mem_range]
  intro i hi j hj
  rw [getD_eq_getElem _ _ hi, getD_eq_getElem _ _ (by omega)]
  exact h _ (getElem_mem hi) _ (getElem_mem _)

end PauliUnitary

open PauliUnitary

/-- The state of the loop over the generators. -/
structure GroupEncoding where
  currentSupport : List ℕ
  currentImages : List PauliUnitary
  result : CliffordUnitary
  pivots : List ℕ

namespace GroupEncoding

/-- Follow a Clifford operation on the encoder and on the images from an index on. -/
def applyFrom (s : GroupEncoding) (index : ℕ) (operation : CliffordUnitary → CliffordUnitary)
    (onImage : PauliUnitary → PauliUnitary) :
    GroupEncoding where
  currentSupport := s.currentSupport
  currentImages := s.currentImages.take index ++ (s.currentImages.drop index).map onImage
  result := operation s.result
  pivots := s.pivots

/-- Move one generator onto a fresh pivot; `none` is the panic on dependent generators. -/
def placeGenerator (s : GroupEncoding) (index : ℕ) : Option GroupEncoding :=
  let remainder :=
    (s.currentImages.getD index neutralElement).denseRestrictionOf s.currentSupport
  match remainder.support.head? with
  | none => none
  | some nonIdentityIndex =>
    let xBit := remainder.xBits.index nonIdentityIndex
    let s' := if xBit then s
      else s.applyFrom index (fun result => result.leftMulRootX nonIdentityIndex)
        (applyRootX nonIdentityIndex)
    let remainder := if xBit then remainder else applyRootX nonIdentityIndex remainder
    let exponent := (remainder.mulAssignLeftZ nonIdentityIndex).addAssignPhaseExp 3
    let s' := s'.applyFrom index (fun result => result.leftMulPauliExp exponent)
      (applyPauliExponent exponent)
    some { s' with
      currentSupport := s'.currentSupport.erase nonIdentityIndex
      pivots := s'.pivots ++ [nonIdentityIndex] }

/-- The state before the first generator. -/
def start (generators : List PauliUnitary) (qubitCount : ℕ) : GroupEncoding where
  currentSupport := List.range qubitCount
  currentImages := generators.map assigned
  result := CliffordUnitary.identity qubitCount
  pivots := []

end GroupEncoding

/-- An encoder of the group of the generators; `none` is a failed assertion or a panic. -/
def groupEncodingCliffordOf (generators : List PauliUnitary) (qubitCount : ℕ) :
    Option CliffordUnitary :=
  if areMutuallyCommuting generators then do
    let s ← (List.range generators.length).foldlM GroupEncoding.placeGenerator
      (GroupEncoding.start generators qubitCount)
    let newOrder := s.pivots ++ s.currentSupport
    let result ← s.result.leftMulPermutation newOrder (List.range qubitCount)
    some result.inverse
  else none

namespace GroupEncoding

/-- The current images are the images of the generators, and the first `index` of them are placed
on the pivots. -/
structure Encodes (n : ℕ) (generators : List PauliUnitary) (index : ℕ) (s : GroupEncoding) :
    Prop where
  valid : s.result.ValidOn n
  perm : (s.pivots ++ s.currentSupport).Perm (List.range n)
  images : s.currentImages.map (fun p => s.result.frame.lift p.toPhased) =
    generators.map PauliUnitary.toPhased
  placed : Placed s.pivots ((s.currentImages.take index).map PauliUnitary.toPhased)

theorem encodes_start (generators : List PauliUnitary) (n : ℕ) :
    Encodes n generators 0 (start generators n) where
  valid := validOn_identity n
  perm := List.Perm.refl _
  images := by
    rw [start, frame_identity, map_map]
    refine map_congr_left fun p _ => ?_
    change GeneratorFrame.identity.lift p.assigned.toPhased = p.toPhased
    rw [GeneratorFrame.lift_identity, toPhased_assigned]
  placed := Placed.nil

namespace Encodes

variable {n index : ℕ} {generators : List PauliUnitary} {s : GroupEncoding}

theorem applyFrom (h : Encodes n generators index s) {operation : CliffordUnitary → CliffordUnitary}
    {onImage : PauliUnitary → PauliUnitary} {φ : PhasedPauli → PhasedPauli}
    (hvalid : (operation s.result).ValidOn n)
    (hfollows : (operation s.result).frame.Follows s.result.frame φ)
    (hon : ∀ p, (onImage p).toPhased = φ p.toPhased)
    (hfix : ∀ p ∈ s.currentImages.take index, φ p.toPhased = p.toPhased) :
    Encodes n generators index (s.applyFrom index operation onImage) where
  valid := hvalid
  perm := h.perm
  images := by
    rw [← h.images]
    conv_rhs => rw [← take_append_drop index s.currentImages]
    simp only [GroupEncoding.applyFrom, map_append, map_map]
    refine congrArg₂ _ (map_congr_left fun p hp => ?_) (map_congr_left fun p _ => ?_)
    · rw [← hfollows.lift_map p.toPhased, hfix p hp]
    · change (operation s.result).frame.lift (onImage p).toPhased = _
      rw [hon, hfollows.lift_map]
  placed := by
    have hbefore : (s.applyFrom index operation onImage).currentImages.take index =
        s.currentImages.take index := by
      simp only [GroupEncoding.applyFrom]
      rcases Nat.lt_or_ge s.currentImages.length index with hlen | hlen
      · rw [drop_eq_nil_of_le hlen.le]
        simp
      · simp [hlen]
    rw [hbefore]
    exact h.placed

theorem length_eq (h : Encodes n generators index s) :
    s.currentImages.length = generators.length := by
  simpa using congrArg List.length h.images

theorem lift_getElem (h : Encodes n generators index s) {i : ℕ} (hi : i < s.currentImages.length)
    (hi' : i < generators.length) :
    s.result.frame.lift s.currentImages[i].toPhased = generators[i].toPhased := by
  have hget := congrArg (fun l : List PhasedPauli => l[i]?) h.images
  simpa [hi, hi'] using hget

end Encodes

/-- Independent commuting Hermitian Paulis on `n` qubits. -/
structure StabilizerGenerators (n : ℕ) (generators : List PauliUnitary) : Prop where
  below : ∀ p ∈ generators, p.Below n
  orderTwo : ∀ p ∈ generators, p.isOrderTwo = true
  commute : ∀ p ∈ generators, ∀ q ∈ generators, p.commutesWith q = true
  independent : LinearIndependent (ZMod 2) fun i : Fin generators.length =>
    (generators.get i).toPhased.vector

section Step

variable {n index : ℕ} {generators : List PauliUnitary} {s : GroupEncoding}
variable (hgenerators : StabilizerGenerators n generators) (h : Encodes n generators index s)
variable (hindex : index < generators.length)

include hgenerators h hindex

theorem index_xBits_pivot (hlen : index < s.currentImages.length) {p : ℕ} (hp : p ∈ s.pivots) :
    s.currentImages[index].xBits.index p = false := by
  refine h.placed.index_xBits_eq_false (r := s.currentImages[index].toPhased) ?_ hp
  intro g hg
  obtain ⟨q, hq, rfl⟩ := mem_map.mp hg
  obtain ⟨j, hj, rfl⟩ := mem_take_iff_getElem.mp hq
  have hj' : j < generators.length := by omega
  rw [← h.valid.frame.anti_lift, h.lift_getElem (by omega) hj', h.lift_getElem hlen hindex]
  have hcommute := hgenerators.commute _ (getElem_mem hj') _ (getElem_mem hindex)
  simpa [commutesWith, antiCommutesWith_eq] using hcommute

omit hgenerators hindex in
theorem not_mem_pivots {i : ℕ} (hi : i ∈ s.currentSupport) : i ∉ s.pivots := by
  have hnodup : (s.pivots ++ s.currentSupport).Nodup := h.perm.nodup_iff.mpr nodup_range
  intro hmem
  exact (nodup_append.mp hnodup).2.2 i hmem i hi rfl

section

variable (hlen : index < s.currentImages.length)

include hlen

theorem below_getElem : s.currentImages[index].Below n := by
  have hbelow := hgenerators.below _ (getElem_mem hindex)
  have hfix := s.result.fixesFrom_frame
  rw [h.valid.numQubits_eq] at hfix
  unfold PauliUnitary.Below at hbelow ⊢
  rwa [← h.lift_getElem hlen hindex, h.valid.frame.below_lift_iff hfix] at hbelow

theorem eq_zProduct_mul_remainder :
    ∃ a : Bits, (∀ i, a.index i = true → i ∈ s.pivots) ∧ s.currentImages[index].toPhased =
        zProduct a * (s.currentImages[index].denseRestrictionOf s.currentSupport).toPhased := by
  have hbelow := below_getElem hgenerators h hindex hlen
  have hpivot := fun {p} => index_xBits_pivot hgenerators h hindex hlen (p := p)
  generalize s.currentImages[index] = g at hbelow hpivot ⊢
  have hx : g.xBits.Below n := hbelow.1
  have hz : g.zBits.Below n := hbelow.2
  have hcases : ∀ i < n, (i ∈ s.pivots ∧ i ∉ s.currentSupport) ∨
      (i ∉ s.pivots ∧ i ∈ s.currentSupport) := by
    intro i hi
    have hmem := h.perm.mem_iff.mpr (mem_range.mpr hi)
    rcases mem_append.mp hmem with hp | hs
    · exact Or.inl ⟨hp, fun hs => not_mem_pivots h hs hp⟩
    · exact Or.inr ⟨not_mem_pivots h hs, hs⟩
  have ha : ∀ i, (fromIndices (g.zBits.support.filter fun i => s.pivots.contains i)).index i =
      (g.zBits.index i && decide (i ∈ s.pivots)) := by
    intro i
    simp [Bool.decide_and]
  refine ⟨fromIndices (g.zBits.support.filter fun i => s.pivots.contains i), ?_, ?_⟩
  · intro i hi
    rw [ha, Bool.and_eq_true, decide_eq_true_iff] at hi
    exact hi.2
  · ext1
    · have hdot : Bits.dot
          (fromIndices (g.zBits.support.filter fun i => s.pivots.contains i))
          (g.denseRestrictionOf s.currentSupport).xBits = false := by
        refine dot_eq_false_of_disjoint fun i hi => ?_
        rw [ha, Bool.and_eq_true, decide_eq_true_iff] at hi
        rw [(index_denseRestrictionOf g s.currentSupport i).1, hpivot hi.2, Bool.false_and]
      change phaseResidue g.xzPhaseExp = 0 + phaseResidue (phaseValue g.xzPhaseExp) +
        twist (Bits.dot (fromIndices (g.zBits.support.filter fun i => s.pivots.contains i))
          (g.denseRestrictionOf s.currentSupport).xBits)
      rw [hdot, phaseResidue_phaseValue, twist_false, zero_add, add_zero]
    · refine ext_index fun i => ?_
      change g.xBits.index i = (0 + (g.denseRestrictionOf s.currentSupport).xBits).index i
      rw [zero_add, (index_denseRestrictionOf g s.currentSupport i).1]
      rcases Nat.lt_or_ge i n with hi | hi
      · rcases hcases i hi with ⟨hp, -⟩ | ⟨-, hs⟩
        · rw [hpivot hp, Bool.false_and]
        · simp [hs]
      · rw [hx.index_eq_false hi, Bool.false_and]
    · refine ext_index fun i => ?_
      change g.zBits.index i =
        (fromIndices (g.zBits.support.filter fun i => s.pivots.contains i) +
          (g.denseRestrictionOf s.currentSupport).zBits).index i
      rw [index_add, ha, (index_denseRestrictionOf g s.currentSupport i).2]
      rcases Nat.lt_or_ge i n with hi | hi
      · rcases hcases i hi with ⟨hp, hs⟩ | ⟨hp, hs⟩ <;> simp [hp, hs]
      · rw [hz.index_eq_false hi, Bool.false_and, Bool.false_and, Bool.xor_false]

theorem orderTwo_getElem :
    s.currentImages[index].toPhased.OrderTwo := by
  refine h.valid.frame.orderTwo_of_lift ?_
  rw [h.lift_getElem hlen hindex]
  exact isOrderTwo_iff.mp (hgenerators.orderTwo _ (getElem_mem hindex))

theorem vector_not_mem_span :
    s.currentImages[index].toPhased.vector ∉ Submodule.span (ZMod 2)
      (vector '' {r | r ∈ (s.currentImages.take index).map toPhased}) := by
  intro hmem
  have hfresh := hgenerators.independent.notMem_span_image (s := {i | i.val < index})
    (x := ⟨index, hindex⟩) (by simp)
  refine hfresh ?_
  have himage := Submodule.mem_map_of_mem
    (f := preimageAction h.valid.frame) hmem
  rw [preimageAction_vector, h.lift_getElem hlen hindex, Submodule.map_span] at himage
  refine Submodule.span_mono ?_ himage
  rintro _ ⟨_, ⟨r, hr, rfl⟩, rfl⟩
  obtain ⟨q, hq, rfl⟩ := mem_map.mp hr
  obtain ⟨j, hj, rfl⟩ := mem_take_iff_getElem.mp hq
  have hj' : j < generators.length := by omega
  refine ⟨⟨j, hj'⟩, ?_, ?_⟩
  · change j < index
    omega
  · rw [preimageAction_vector, h.lift_getElem (by omega) hj']
    rfl

theorem exists_head_support : ∃ p ∈ s.currentSupport,
      (s.currentImages[index].denseRestrictionOf s.currentSupport).support.head? = some p ∧
        ((s.currentImages[index].denseRestrictionOf s.currentSupport).xBits.index p = true ∨
          (s.currentImages[index].denseRestrictionOf s.currentSupport).zBits.index p = true) := by
  obtain ⟨a, ha, hcur⟩ := eq_zProduct_mul_remainder hgenerators h hindex hlen
  have hfresh := vector_not_mem_span hgenerators h hindex hlen
  have hindexes := index_denseRestrictionOf s.currentImages[index] s.currentSupport
  generalize s.currentImages[index].denseRestrictionOf s.currentSupport = R at hcur hindexes ⊢
  have hmem : ∀ i, i ∈ R.support ↔ (R.xBits.index i = true ∨ R.zBits.index i = true) := by
    intro i
    simp [PauliUnitary.support]
  cases hhead : R.support with
  | nil =>
    have hzero : R.toPhased.vector = 0 := by
      refine Prod.ext (ext_index fun i => ?_) (ext_index fun i => ?_)
      · have hi := hmem i
        rw [hhead] at hi
        change R.xBits.index i = (0 : Bits).index i
        rw [index_zero]
        exact Bool.eq_false_iff.mpr fun hx => not_mem_nil (hi.mpr (Or.inl hx))
      · have hi := hmem i
        rw [hhead] at hi
        change R.zBits.index i = (0 : Bits).index i
        rw [index_zero]
        exact Bool.eq_false_iff.mpr fun hz => not_mem_nil (hi.mpr (Or.inr hz))
    rw [hcur, vector_mul, hzero, add_zero] at hfresh
    exact absurd (h.placed.vector_zProduct_mem_span ha) hfresh
  | cons p rest =>
    have hp := (hmem p).mp (by rw [hhead]; exact mem_cons_self)
    refine ⟨p, ?_, rfl, hp⟩
    rcases hp with hp | hp
    · rw [(hindexes p).1, Bool.and_eq_true, decide_eq_true_iff] at hp
      exact hp.2
    · rw [(hindexes p).2, Bool.and_eq_true, decide_eq_true_iff] at hp
      exact hp.2

end

end Step

section Place

variable {n index : ℕ} {generators : List PauliUnitary} {s : GroupEncoding}
variable (h : Encodes n generators index s)

include h

theorem pauliExp_placed {q : PhasedPauli} (hq : ∀ p ∈ s.pivots, q.xBits.index p = false)
    {r : PauliUnitary} (hr : r ∈ s.currentImages.take index) :
    pauliExp q r.toPhased = r.toPhased := by
  refine pauliExp_of_not_anti ?_
  rw [anti_comm]
  exact h.placed.anti_eq_false hq (mem_map_of_mem hr)

theorem encodes_rootX {p : ℕ} (hp : p ∈ s.currentSupport) : Encodes n generators index
      (s.applyFrom index (fun result => result.leftMulRootX p) (applyRootX p)) := by
  have hlt : p < s.result.numQubits := by
    rw [h.valid.numQubits_eq]
    exact mem_range.mp (h.perm.mem_iff.mp (mem_append_right _ hp))
  have hfollows := follows_leftMulRootX h.valid.frame hlt
  refine h.applyFrom ?_ hfollows (toPhased_applyRootX p) fun r hr => pauliExp_placed h ?_ hr
  · refine validOn_iff_frame.mpr ⟨?_, hfollows.valid⟩
    exact h.valid.numQubits_eq
  · intro q hq
    have hne : p ≠ q := by
      rintro rfl
      exact not_mem_pivots h hp hq
    simp [hne]

theorem encodes_place (hlen : index < s.currentImages.length) {p : ℕ} (hp : p ∈ s.currentSupport)
    {a : Bits} (ha : ∀ i, a.index i = true → i ∈ s.pivots) {R : PauliUnitary}
    (hcur : s.currentImages[index].toPhased = zProduct a * R.toPhased) (hR : R.toPhased.OrderTwo)
    (hbelow : R.Below n) (hpivots : ∀ q ∈ s.pivots, R.xBits.index q = false)
    (hx : R.xBits.index p = true) : Encodes n generators (index + 1) { s.applyFrom index
          (fun result => result.leftMulPauliExp ((R.mulAssignLeftZ p).addAssignPhaseExp 3))
          (applyPauliExponent ((R.mulAssignLeftZ p).addAssignPhaseExp 3)) with
        currentSupport := s.currentSupport.erase p
        pivots := s.pivots ++ [p] } := by
  have hexponent : ((R.mulAssignLeftZ p).addAssignPhaseExp 3).toPhased =
      placingExponent p R.toPhased := by
    rw [toPhased_addAssignPhaseExp, toPhased_mulAssignLeftZ]
    rfl
  generalize (R.mulAssignLeftZ p).addAssignPhaseExp 3 = exponent at hexponent ⊢
  have hlt : p < n := mem_range.mp (h.perm.mem_iff.mp (mem_append_right _ hp))
  have htwo : exponent.toPhased.OrderTwo := by
    rw [hexponent]
    exact orderTwo_placingExponent hR hx
  have hexpBelow : exponent.Below n := by
    unfold PauliUnitary.Below
    rw [hexponent]
    exact (below_iPow n 3).mul ((below_Z.mpr hlt).mul hbelow)
  have hexpPivots : ∀ q ∈ s.pivots, exponent.toPhased.xBits.index q = false := by
    intro q hq
    rw [hexponent]
    simpa [placingExponent] using hpivots q hq
  have hexpBelow' := hexpBelow
  rw [← h.valid.numQubits_eq] at hexpBelow'
  have hfollows := follows_leftMulPauliExp h.valid.frame hexpBelow' htwo
  have hnext := h.applyFrom (h.valid.leftMulPauliExp hexpBelow htwo) hfollows
    (toPhased_applyPauliExponent exponent) fun r hr => pauliExp_placed h hexpPivots hr
  have hplaced : pauliExp exponent.toPhased s.currentImages[index].toPhased =
      Z p * zProduct a := by
    rw [hcur, hexponent]
    exact pauliExp_placingExponent hR hx (anti_zProduct fun i hi => hpivots i (ha i hi))
  refine ⟨hnext.valid, ?_, hnext.images, ?_⟩
  · have herase := (perm_cons_erase hp).symm
    have hmove : (s.pivots ++ [p] ++ s.currentSupport.erase p).Perm
        (s.pivots ++ s.currentSupport) := by
      rw [append_assoc]
      exact herase.append_left s.pivots
    exact hmove.trans h.perm
  · have htake : (s.applyFrom index (fun result => result.leftMulPauliExp exponent)
        (applyPauliExponent exponent)).currentImages.take (index + 1) =
          s.currentImages.take index ++ [applyPauliExponent exponent s.currentImages[index]] := by
      have hbefore : (s.currentImages.take index).length = index := by
        rw [length_take]
        omega
      simp only [GroupEncoding.applyFrom]
      rw [take_append, hbefore, Nat.add_sub_cancel_left, take_of_length_le (by omega),
        drop_eq_getElem_cons hlen]
      rfl
    change Placed (s.pivots ++ [p]) (((s.applyFrom index
      (fun result => result.leftMulPauliExp exponent)
      (applyPauliExponent exponent)).currentImages.take (index + 1)).map toPhased)
    rw [htake, map_append, map_singleton, toPhased_applyPauliExponent, hplaced]
    exact Placed.snoc p h.placed ha

end Place

theorem placeGenerator_spec {n index : ℕ} {generators : List PauliUnitary}
    (hgenerators : StabilizerGenerators n generators) {s : GroupEncoding}
    (h : Encodes n generators index s) (hindex : index < generators.length) :
    ∃ s', s.placeGenerator index = some s' ∧ Encodes n generators (index + 1) s' := by
  have hlen : index < s.currentImages.length := by
    rw [h.length_eq]
    exact hindex
  obtain ⟨a, ha, hcur⟩ := eq_zProduct_mul_remainder hgenerators h hindex hlen
  obtain ⟨p, hp, hhead, hbit⟩ := exists_head_support hgenerators h hindex hlen
  have hindexes := index_denseRestrictionOf s.currentImages[index] s.currentSupport
  have htwo := orderTwo_getElem hgenerators h hindex hlen
  have hcurBelow := below_getElem hgenerators h hindex hlen
  unfold placeGenerator
  rw [getD_eq_getElem _ _ hlen]
  generalize s.currentImages[index].denseRestrictionOf s.currentSupport = R at *
  have hlt : p < n := mem_range.mp (h.perm.mem_iff.mp (mem_append_right _ hp))
  have hpivots : ∀ q ∈ s.pivots, R.xBits.index q = false := by
    intro q hq
    have hout : q ∉ s.currentSupport := fun hs => not_mem_pivots h hs hq
    rw [(hindexes q).1, decide_eq_false hout, Bool.and_false]
  have hbelow : R.Below n := by
    have hcurX : s.currentImages[index].xBits.Below n := hcurBelow.1
    have hcurZ : s.currentImages[index].zBits.Below n := hcurBelow.2
    refine ⟨below_iff.mpr fun i hi => (hindexes i).1.trans ?_,
      below_iff.mpr fun i hi => (hindexes i).2.trans ?_⟩
    · rw [hcurX.index_eq_false hi, Bool.false_and]
    · rw [hcurZ.index_eq_false hi, Bool.false_and]
  have hanti : anti (zProduct a) R.toPhased = false :=
    anti_zProduct fun i hi => hpivots i (ha i hi)
  have hR : R.toPhased.OrderTwo := by
    rw [hcur] at htwo
    exact htwo.of_zProduct_mul hanti
  simp only [hhead]
  cases hx : R.xBits.index p with
  | true => exact ⟨_, rfl, encodes_place h hlen hp ha hcur hR hbelow hpivots hx⟩
  | false =>
    -- the root of `X` turns the `Z` of the remainder on the pivot into an operator with `X`
    have hz : R.zBits.index p = true := by
      rcases hbit with hbit | hbit
      · rw [hx] at hbit
        contradiction
      · exact hbit
    have hroot : (iPow 2 * X p).OrderTwo := (orderTwo_X p).neg
    have hfixed : pauliExp (iPow 2 * X p) (zProduct a) = zProduct a := by
      refine pauliExp_of_not_anti ?_
      rw [anti_comm, anti_mul_right, anti_iPow_right, Bool.false_xor]
      refine anti_zProduct fun i hi => ?_
      have hne : p ≠ i := by
        rintro rfl
        exact not_mem_pivots h hp (ha p hi)
      simp [hne]
    have hR' : (applyRootX p R).toPhased.OrderTwo := by
      rw [toPhased_applyRootX]
      exact OrderTwo.map (φ := pauliExpHom _ hroot) hR
    have hrootX : ∀ q, (applyRootX p R).xBits.index q = (R.xBits.index q ^^ decide (p = q)) := by
      intro q
      simp [applyRootX, hz, mulAssignLeftX, addAssignPhaseExp, Bool.xor_comm]
    have hrootBelow : (applyRootX p R).Below n := by
      have hunit : (unit p).Below n := below_unit.mpr hlt
      unfold applyRootX
      rw [hz, if_pos rfl]
      exact ⟨hunit.add hbelow.1, hbelow.2⟩
    have hnext := encodes_rootX h hp
    have hlen' : index < (s.applyFrom index (fun result => result.leftMulRootX p)
        (applyRootX p)).currentImages.length := by
      rw [hnext.length_eq]
      exact hindex
    refine ⟨_, rfl, encodes_place hnext hlen' hp ha (R := applyRootX p R) ?_ hR' hrootBelow ?_ ?_⟩
    · have hget : (s.applyFrom index (fun result => result.leftMulRootX p)
          (applyRootX p)).currentImages[index] = applyRootX p s.currentImages[index] := by
        simp [GroupEncoding.applyFrom, Nat.min_eq_left hlen.le]
      rw [hget, toPhased_applyRootX, toPhased_applyRootX, hcur, pauliExp_mul hroot, hfixed]
    · intro q hq
      have hne : p ≠ q := by
        rintro rfl
        exact not_mem_pivots h hp hq
      rw [hrootX, hpivots q hq]
      simp [hne]
    · rw [hrootX, hx]
      simp

theorem foldlM_placeGenerator {n : ℕ} {generators : List PauliUnitary}
    (hgenerators : StabilizerGenerators n generators) {index : ℕ}
    (hindex : index ≤ generators.length) :
    ∃ s, (List.range index).foldlM placeGenerator (start generators n) = some s ∧
      Encodes n generators index s := by
  induction index with
  | zero => exact ⟨_, rfl, encodes_start generators n⟩
  | succ index ih =>
    obtain ⟨s, hrun, hs⟩ := ih (by omega)
    obtain ⟨s', hstep, hs'⟩ := placeGenerator_spec hgenerators hs (by omega)
    refine ⟨s', ?_, hs'⟩
    rw [range_succ, foldlM_append, hrun]
    simpa using hstep

end GroupEncoding

namespace CliffordUnitary

/-- The group that the images of the first `k` qubits' `Z` generate. -/
def imageZGroup (E : CliffordUnitary) (k : ℕ) : Subgroup PhasedPauli :=
  Subgroup.closure {r | ∃ q < k, r = (E.imageZ q).toPhased}

theorem exists_prod_of_mem_imageZGroup {n k : ℕ} {E : CliffordUnitary} (hE : E.ValidOn n)
    (hk : k ≤ n) {r : PhasedPauli} (hr : r ∈ E.imageZGroup k) :
    ∃ qs : List ℕ, (∀ q ∈ qs, q < k) ∧ r = (qs.map fun q => (E.imageZ q).toPhased).prod := by
  have htwo : ∀ q < k, (E.imageZ q).toPhased.OrderTwo := by
    intro q hq
    refine hE.frame.orderTwo_of_lift ?_
    rw [toPhased_imageZ hE.frame (by rw [hE.numQubits_eq]; omega)]
    exact orderTwo_Z q
  induction hr using Subgroup.closure_induction with
  | mem r hr =>
    obtain ⟨q, hq, rfl⟩ := hr
    exact ⟨[q], by simpa using hq, by simp⟩
  | one => exact ⟨[], by simp, rfl⟩
  | mul r s _ _ hr hs =>
    obtain ⟨qs, hqs, rfl⟩ := hr
    obtain ⟨qs', hqs', rfl⟩ := hs
    refine ⟨qs ++ qs', ?_, by simp⟩
    intro q hq
    exact (mem_append.mp hq).elim (hqs q) (hqs' q)
  | inv r _ hr =>
    obtain ⟨qs, hqs, rfl⟩ := hr
    refine ⟨qs.reverse, fun q hq => hqs q (mem_reverse.mp hq), ?_⟩
    rw [prod_inv_reverse, map_map, map_reverse]
    refine congrArg List.prod (congrArg List.reverse (map_congr_left fun q hq => ?_))
    exact (htwo q (hqs q hq)).inv_eq

end CliffordUnitary

theorem exists_inverse_permuted {n : ℕ} {C : CliffordUnitary} (hC : C.ValidOn n) {newOrder : List ℕ}
    (hperm : newOrder.Perm (List.range n)) :
    ∃ result, C.leftMulPermutation newOrder (List.range n) = some result ∧
      result.inverse.ValidOn n ∧ ∀ q, (hq : q < newOrder.length) →
        (result.inverse.imageZ q).toPhased = C.frame.lift (Z newOrder[q]) := by
  have hlen : newOrder.length = n := by simpa using hperm.length_eq
  have hperm' : newOrder.Perm (List.range newOrder.length) := by
    rw [hlen]
    exact hperm
  have hlen' : newOrder.length = (List.range n).length := by simpa using hlen
  have hlt : ∀ q ∈ List.range n, q < C.numQubits := by
    intro q hq
    rw [hC.numQubits_eq]
    exact mem_range.mp hq
  have hframe := frame_assignPreimages_permuted hperm' nodup_range hlen' hlt
  have hsome : C.leftMulPermutation newOrder (List.range n) =
      some (C.assignPreimages (List.range n) (C.permutedPreimages newOrder (List.range n))) :=
    leftMulPermutation_eq_some_iff.mpr ⟨hperm', nodup_range, hlen', rfl⟩
  have hcount := numQubits_assignPreimages C (List.range n)
    (C.permutedPreimages newOrder (List.range n))
  generalize C.assignPreimages (List.range n) (C.permutedPreimages newOrder (List.range n)) =
    result at hframe hsome hcount
  have hresult : result.ValidOn n := by
    refine validOn_iff_frame.mpr ⟨?_, ?_⟩
    · rw [hcount, hC.numQubits_eq]
    · rw [hframe]
      exact hC.frame.relabel (Equiv.injective _)
  have hinverse := validOn_inverse hresult
  refine ⟨result, hsome, hinverse, fun q hq => ?_⟩
  have hqn : q < n := by omega
  have himage := toPhased_imageZ hinverse.frame (q := q)
    (by rw [hinverse.numQubits_eq]; exact hqn)
  have hlift := lift_frame_lift_inverse hresult (result.inverse.imageZ q).toPhased
  rw [himage, GeneratorFrame.lift_Z, hframe] at hlift
  rw [← hlift, GeneratorFrame.lift_Z]
  change C.frame.z (permutationSource newOrder (List.range n) q) = _
  have hidx : (List.range n).idxOf q = q := by
    have hq' : q < (List.range n).length := by simpa using hqn
    have hget : (List.range n)[q] = q := getElem_range _
    conv_lhs => rw [← hget]
    exact nodup_range.idxOf_getElem q hq'
  have hentry : newOrder[q] < n :=
    mem_range.mp (hperm.mem_iff.mp (getElem_mem hq))
  have hsource : permutationSource newOrder (List.range n) q = newOrder[q] := by
    rw [permutationSource, if_pos (mem_range.mpr hqn), hidx,
      getD_eq_getElem _ _ hq, getD_eq_getElem _ _ (by simpa using hentry),
      getElem_range]
  rw [hsource]

/-- The encoder of independent commuting Hermitian Paulis generates their signed group. -/
theorem groupEncodingCliffordOf_spec {n : ℕ} {generators : List PauliUnitary}
    (hgenerators : GroupEncoding.StabilizerGenerators n generators) :
    ∃ E, groupEncodingCliffordOf generators n = some E ∧ E.ValidOn n ∧
      E.imageZGroup generators.length = Subgroup.closure {r | ∃ g ∈ generators, r = g.toPhased} ∧
        ∀ g ∈ generators, ∃ qs : List ℕ, (∀ q ∈ qs, q < generators.length) ∧
          g.toPhased = (qs.map fun q => (E.imageZ q).toPhased).prod := by
  obtain ⟨s, hrun, hs⟩ := GroupEncoding.foldlM_placeGenerator hgenerators le_rfl
  obtain ⟨result, hresult, hinverse, himage⟩ := exists_inverse_permuted hs.valid hs.perm
  have hcommuting := areMutuallyCommuting_of hgenerators.commute
  have hplaced := hs.placed
  rw [take_of_length_le hs.length_eq.le] at hplaced
  have hpivots : s.pivots.length = generators.length := by
    rw [← hplaced.length_eq, length_map, hs.length_eq]
  have hlength : generators.length ≤ n := by
    have hn : (s.pivots ++ s.currentSupport).length = n := by simpa using hs.perm.length_eq
    rw [length_append] at hn
    omega
  have hgroup : result.inverse.imageZGroup generators.length =
      Subgroup.closure {r | ∃ g ∈ generators, r = g.toPhased} := by
    have himages : {r | ∃ q < generators.length, r = (result.inverse.imageZ q).toPhased} =
        hs.valid.frame.liftHom '' {r | ∃ p ∈ s.pivots, r = Z p} := by
      refine Set.ext fun r => ⟨?_, ?_⟩
      · rintro ⟨q, hq, rfl⟩
        have hq' : q < s.pivots.length := by omega
        refine ⟨Z s.pivots[q], ⟨_, getElem_mem hq', rfl⟩, ?_⟩
        rw [himage q (by rw [length_append]; omega), getElem_append_left hq']
        rfl
      · rintro ⟨_, ⟨p, hp, rfl⟩, rfl⟩
        obtain ⟨q, hq, rfl⟩ := mem_iff_getElem.mp hp
        refine ⟨q, by omega, ?_⟩
        rw [himage q (by rw [length_append]; omega), getElem_append_left hq]
        rfl
    have hgens : {r | ∃ g ∈ generators, r = g.toPhased} =
        hs.valid.frame.liftHom '' {r | r ∈ s.currentImages.map toPhased} := by
      have hmap : (s.currentImages.map toPhased).map s.result.frame.lift =
          generators.map toPhased := by
        rw [← hs.images, map_map]
        rfl
      refine Set.ext fun r => ?_
      have hmem : r ∈ generators.map toPhased ↔
          ∃ g ∈ generators, r = g.toPhased := by
        simp [eq_comm]
      rw [Set.mem_ofPred_eq, ← hmem, ← hmap, mem_map]
      rfl
    unfold imageZGroup
    rw [himages, hgens, ← MonoidHom.map_closure, ← MonoidHom.map_closure, hplaced.closure_eq]
    rfl
  refine ⟨result.inverse, ?_, hinverse, hgroup, fun g hg => ?_⟩
  · unfold groupEncodingCliffordOf
    rw [if_pos hcommuting, hrun]
    change (s.result.leftMulPermutation (s.pivots ++ s.currentSupport) (List.range n)).bind _ = _
    rw [hresult]
    rfl
  · refine exists_prod_of_mem_imageZGroup hinverse hlength ?_
    rw [hgroup]
    exact Subgroup.subset_closure ⟨g, hg, rfl⟩

theorem stabilizerGenerators_bell :
    GroupEncoding.StabilizerGenerators 2 [⟨⟨3⟩, 0, 2⟩, ⟨0, ⟨3⟩, 0⟩] where
  below := by decide
  orderTwo := by decide
  commute := by decide
  independent := by
    refine Fintype.linearIndependent_iff.mpr fun c hc => ?_
    have hsum : c 0 • ((⟨3⟩, 0) : PauliVector) + c 1 • ((0, ⟨3⟩) : PauliVector) = 0 := by
      rw [← hc]
      exact (Fin.sum_univ_two fun i : Fin 2 => c i •
        (([⟨⟨3⟩, 0, 2⟩, ⟨0, ⟨3⟩, 0⟩] : List PauliUnitary).get i).toPhased.vector).symm
    have hboth : c 0 = 0 ∧ c 1 = 0 := by
      rcases Transvection.scalar_cases (c 0) with h0 | h0 <;>
        rcases Transvection.scalar_cases (c 1) with h1 | h1 <;>
          rw [h0, h1] at hsum <;>
            simp [Prod.ext_iff, Bits.ext_iff, show (0 : Bits).mask = 0 from rfl] at hsum
      exact ⟨h0, h1⟩
    exact Fin.forall_fin_two.mpr hboth

theorem groupEncodingCliffordOf_spec_bell :
    ∃ E, groupEncodingCliffordOf [⟨⟨3⟩, 0, 2⟩, ⟨0, ⟨3⟩, 0⟩] 2 = some E ∧ E.ValidOn 2 := by
  obtain ⟨E, hE, hvalid, -⟩ := groupEncodingCliffordOf_spec stabilizerGenerators_bell
  exact ⟨E, hE, hvalid⟩

end QdkEc
