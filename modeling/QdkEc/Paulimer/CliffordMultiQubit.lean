import QdkEc.Lib.Relabel
import QdkEc.Paulimer.CliffordMutable

/-!
# Left multiplication on many qubits

This module models left multiplication by Paulis, Pauli exponentials, controlled
Paulis, permutations and Clifford unitaries on a support.  Each of them rewrites
the preimages of a list of qubits from values computed before the first write.
-/

namespace QdkEc

open PhasedPauli List PauliUnitary GeneratorFrame

namespace CliffordUnitary

/-- Rewrite the preimages of `X` of a list of qubits in place, each in its own way. -/
def rewritePreimagesX (C : CliffordUnitary) (g : ℕ → PauliUnitary → PauliUnitary)
    (qubits : List ℕ) :
    CliffordUnitary :=
  qubits.foldl (fun C index => C.setPreimageX index (g index (C.preimageXView index))) C

/-- Rewrite the preimages of `Z` of a list of qubits in place, each in its own way. -/
def rewritePreimagesZ (C : CliffordUnitary) (g : ℕ → PauliUnitary → PauliUnitary)
    (qubits : List ℕ) :
    CliffordUnitary :=
  qubits.foldl (fun C index => C.setPreimageZ index (g index (C.preimageZView index))) C

/-- Rewrite the preimages of `X` of a list of qubits in place. -/
def updatePreimagesX (C : CliffordUnitary) (g : PauliUnitary → PauliUnitary) (qubits : List ℕ) :
    CliffordUnitary :=
  qubits.foldl (fun C index => C.setPreimageX index (g (C.preimageXView index))) C

/-- Rewrite the preimages of `Z` of a list of qubits in place. -/
def updatePreimagesZ (C : CliffordUnitary) (g : PauliUnitary → PauliUnitary) (qubits : List ℕ) :
    CliffordUnitary :=
  qubits.foldl (fun C index => C.setPreimageZ index (g (C.preimageZView index))) C

@[simp]
theorem numQubits_rewritePreimagesX (C : CliffordUnitary) (g : ℕ → PauliUnitary → PauliUnitary)
    (qubits : List ℕ) : (C.rewritePreimagesX g qubits).numQubits = C.numQubits := by
  induction qubits generalizing C with
  | nil => rfl
  | cons index qubits ih => exact ih _

theorem numQubits_updatePreimagesX (C : CliffordUnitary) (g : PauliUnitary → PauliUnitary)
    (qubits : List ℕ) : (C.updatePreimagesX g qubits).numQubits = C.numQubits :=
  numQubits_rewritePreimagesX C (fun _ => g) qubits

@[simp]
theorem numQubits_rewritePreimagesZ (C : CliffordUnitary) (g : ℕ → PauliUnitary → PauliUnitary)
    (qubits : List ℕ) : (C.rewritePreimagesZ g qubits).numQubits = C.numQubits := by
  induction qubits generalizing C with
  | nil => rfl
  | cons index qubits ih => exact ih _

theorem numQubits_updatePreimagesZ (C : CliffordUnitary) (g : PauliUnitary → PauliUnitary)
    (qubits : List ℕ) : (C.updatePreimagesZ g qubits).numQubits = C.numQubits :=
  numQubits_rewritePreimagesZ C (fun _ => g) qubits

variable {qubits : List ℕ}

section Rewrite

variable {g : ℕ → PauliUnitary → PauliUnitary} {γ : ℕ → PhasedPauli → PhasedPauli}
variable (hg : ∀ q p, (g q p).toPhased = γ q p.toPhased)

include hg

theorem frame_rewritePreimagesX {C : CliffordUnitary} (hnodup : qubits.Nodup)
    (hlt : ∀ q ∈ qubits, q < C.numQubits) (j : ℕ) : (C.rewritePreimagesX g qubits).frame.x j =
        (if j ∈ qubits then γ j (C.frame.x j) else C.frame.x j) ∧
      (C.rewritePreimagesX g qubits).frame.z j = C.frame.z j := by
  induction qubits generalizing C with
  | nil => exact ⟨rfl, rfl⟩
  | cons index qubits ih =>
    obtain ⟨habsent, hnodup⟩ := nodup_cons.mp hnodup
    have hindex : index < C.numQubits := hlt index (by simp)
    obtain ⟨hx, hz⟩ := ih (C := C.setPreimageX index (g index (C.preimageXView index))) hnodup
      (fun q hq => hlt q (by simp [hq]))
    constructor
    · refine hx.trans ?_
      rw [frame_x_setPreimageX hindex, hg, ← frame_x hindex]
      by_cases hj : j = index
      · subst hj
        simp [habsent]
      · simp [hj]
    · exact hz.trans (frame_z_setPreimageX hindex _ j)

theorem frame_rewritePreimagesZ {C : CliffordUnitary} (hnodup : qubits.Nodup)
    (hlt : ∀ q ∈ qubits, q < C.numQubits) (j : ℕ) :
    (C.rewritePreimagesZ g qubits).frame.x j = C.frame.x j ∧
      (C.rewritePreimagesZ g qubits).frame.z j =
        (if j ∈ qubits then γ j (C.frame.z j) else C.frame.z j) := by
  induction qubits generalizing C with
  | nil => exact ⟨rfl, rfl⟩
  | cons index qubits ih =>
    obtain ⟨habsent, hnodup⟩ := nodup_cons.mp hnodup
    have hindex : index < C.numQubits := hlt index (by simp)
    obtain ⟨hx, hz⟩ := ih (C := C.setPreimageZ index (g index (C.preimageZView index))) hnodup
      (fun q hq => hlt q (by simp [hq]))
    constructor
    · exact hx.trans (frame_x_setPreimageZ hindex _ j)
    · refine hz.trans ?_
      rw [frame_z_setPreimageZ hindex, hg, ← frame_z hindex]
      by_cases hj : j = index
      · subst hj
        simp [habsent]
      · simp [hj]

end Rewrite

section Update

variable {g : PauliUnitary → PauliUnitary} {γ : PhasedPauli → PhasedPauli}
variable (hg : ∀ p, (g p).toPhased = γ p.toPhased)

include hg

theorem frame_updatePreimagesX {C : CliffordUnitary} (hnodup : qubits.Nodup)
    (hlt : ∀ q ∈ qubits, q < C.numQubits) (j : ℕ) : (C.updatePreimagesX g qubits).frame.x j =
        (if j ∈ qubits then γ (C.frame.x j) else C.frame.x j) ∧
      (C.updatePreimagesX g qubits).frame.z j = C.frame.z j :=
  frame_rewritePreimagesX (g := fun _ => g) (γ := fun _ => γ) (fun _ => hg) hnodup hlt j

theorem frame_updatePreimagesZ {C : CliffordUnitary} (hnodup : qubits.Nodup)
    (hlt : ∀ q ∈ qubits, q < C.numQubits) (j : ℕ) :
    (C.updatePreimagesZ g qubits).frame.x j = C.frame.x j ∧
      (C.updatePreimagesZ g qubits).frame.z j =
        (if j ∈ qubits then γ (C.frame.z j) else C.frame.z j) :=
  frame_rewritePreimagesZ (g := fun _ => g) (γ := fun _ => γ) (fun _ => hg) hnodup hlt j

end Update

theorem lt_of_mem_support {n q : ℕ} {b : Bits} (hb : b.Below n) (hq : q ∈ b.support) : q < n :=
  hb.lt_of_index (Bits.mem_support.mp hq)

/-- Rewrite the preimages of `Z` on one support and those of `X` on another. -/
def updatePreimages (C : CliffordUnitary) (g : PauliUnitary → PauliUnitary) (pauli : PauliUnitary) :
    CliffordUnitary :=
  (C.updatePreimagesZ g pauli.xBits.support).updatePreimagesX g pauli.zBits.support

theorem numQubits_updatePreimages (C : CliffordUnitary) (g : PauliUnitary → PauliUnitary)
    (pauli : PauliUnitary) : (C.updatePreimages g pauli).numQubits = C.numQubits := by
  unfold updatePreimages
  rw [numQubits_updatePreimagesX, numQubits_updatePreimagesZ]

variable {pauli : PauliUnitary}

variable {C clifford : CliffordUnitary} {support : List ℕ}

theorem frame_updatePreimages {g : PauliUnitary → PauliUnitary}
    {γ : PhasedPauli → PhasedPauli} (hg : ∀ p, (g p).toPhased = γ p.toPhased)
    (hp : pauli.Below C.numQubits) (j : ℕ) : (C.updatePreimages g pauli).frame.x j =
        (if anti pauli.toPhased (X j) then γ (C.frame.x j) else C.frame.x j) ∧
      (C.updatePreimages g pauli).frame.z j =
        (if anti pauli.toPhased (Z j) then γ (C.frame.z j) else C.frame.z j) := by
  have hx : pauli.xBits.Below C.numQubits := hp.1
  have hz : pauli.zBits.Below C.numQubits := hp.2
  have hfirst := frame_updatePreimagesZ hg pauli.xBits.nodup_support
    (fun q hq => lt_of_mem_support hx hq) j
  have hsecond := frame_updatePreimagesX (C := C.updatePreimagesZ g pauli.xBits.support) hg
    pauli.zBits.nodup_support
    (fun q hq => by
      rw [numQubits_updatePreimagesZ]
      exact lt_of_mem_support hz hq) j
  rw [hfirst.1] at hsecond
  rw [hfirst.2] at hsecond
  simpa [updatePreimages] using hsecond

def leftMulPauli (C : CliffordUnitary) (pauli : PauliUnitary) : CliffordUnitary :=
  let C := pauli.xBits.support.foldl leftMulX C
  pauli.zBits.support.foldl leftMulZ C

/-- Left multiplication by a Pauli exponential. -/
def leftMulPauliExp (C : CliffordUnitary) (pauli : PauliUnitary) : CliffordUnitary :=
  if 0 < C.numQubits then
    let pauliPreimage :=
      (C.mulAssignRightPreimage PauliUnitary.neutralElement pauli).addAssignPhaseExp 1
    C.updatePreimages (fun p => p.mulAssignRight pauliPreimage) pauli
  else C

def leftMulControlledPauli (C : CliffordUnitary) (control target : PauliUnitary) :
    CliffordUnitary :=
  if 0 < C.numQubits then
    let targetPreimage := C.mulAssignRightPreimage PauliUnitary.neutralElement target
    let controlPreimage := C.mulAssignRightPreimage PauliUnitary.neutralElement control
    (C.updatePreimages (fun p => p.mulAssignRight targetPreimage) control).updatePreimages
      (fun p => p.mulAssignLeft controlPreimage) target
  else C

theorem leftMulPauli_eq_updatePreimages (C : CliffordUnitary) (pauli : PauliUnitary) :
    C.leftMulPauli pauli = C.updatePreimages (fun p => p.addAssignPhaseExp 2) pauli :=
  rfl

theorem anti_eq_false_of_no_qubits (hn : ¬ 0 < C.numQubits)
    (hp : pauli.Below C.numQubits) (r : PhasedPauli) : anti pauli.toPhased r = false := by
  have hzero : ∀ b : Bits, b.Below C.numQubits → b = 0 := by
    intro b hb
    apply Bits.ext_index
    intro i
    rw [hb.index_eq_false (by omega), Bits.index_zero]
  have hx : pauli.xBits = 0 := hzero _ hp.1
  have hz : pauli.zBits = 0 := hzero _ hp.2
  rw [anti, toPhased_xBits, toPhased_zBits, hx, hz, Bits.dot_zero_left, Bits.dot_zero_left]
  rfl

section MultiQubit

variable {C : CliffordUnitary} (hf : C.frame.Valid)

include hf

theorem follows_leftMulPauli (hp : pauli.Below C.numQubits) :
    (C.leftMulPauli pauli).frame.Follows C.frame (conjugate pauli.toPhased) := by
  have hg : ∀ p : PauliUnitary, (p.addAssignPhaseExp 2).toPhased = iPow 2 * p.toPhased := by
    intro p
    rw [toPhased_addAssignPhaseExp]
    rfl
  have hframe := frame_updatePreimages (C := C) hg hp
  rw [leftMulPauli_eq_updatePreimages]
  apply follows_conjugate_of_frame hf
  · intro i
    rw [(hframe i).1, anti_X_right]
    cases pauli.toPhased.zBits.index i <;> simp
  · intro i
    rw [(hframe i).2, anti_Z_right]
    cases pauli.toPhased.xBits.index i <;> simp

theorem follows_leftMulPauliExp (hp : pauli.Below C.numQubits) (htwo : pauli.toPhased.OrderTwo) :
    (C.leftMulPauliExp pauli).frame.Follows C.frame (pauliExp pauli.toPhased) := by
  have hneg : ∀ r : PhasedPauli, pauliExp (iPow 2 * pauli.toPhased) r =
      if anti pauli.toPhased r then r * (iPow 1 * pauli.toPhased) else r := by
    intro r
    cases h : anti pauli.toPhased r with
    | false =>
      rw [pauliExp_of_not_anti (by simp [h])]
      simp
    | true =>
      have hcomm : pauli.toPhased * r = iPow 2 * (r * pauli.toPhased) := mul_comm_of_anti h
      rw [pauliExp_of_anti (by simp [h]), mul_assoc, hcomm, iPow_two_mul_iPow_two_mul]
      simp [mul_iPow_mul]
  have hfollows : (C.leftMulPauliExp pauli).frame.Follows C.frame
      (pauliExp (iPow 2 * (iPow 2 * pauli.toPhased))) := by
    by_cases hn : 0 < C.numQubits
    · have hpre : ((C.mulAssignRightPreimage neutralElement pauli).addAssignPhaseExp
          1).toPhased = iPow 1 * C.frame.lift pauli.toPhased := by
        rw [toPhased_addAssignPhaseExp]
        exact congrArg (iPow 1 * ·) (toPhased_preimage hp)
      have hframe := frame_updatePreimages (C := C) (γ := fun p => p * (iPow 1 *
        C.frame.lift pauli.toPhased)) (g := fun p => p.mulAssignRight _)
        (fun p => by rw [toPhased_mulAssignRight, hpre]) hp
      simp only [leftMulPauliExp, if_pos hn]
      apply follows_pauliExp_of_frame hf htwo.neg
      · intro i
        rw [(hframe i).1, hneg]
        cases anti pauli.toPhased (X i) <;> simp [hf.lift_mul]
      · intro i
        rw [(hframe i).2, hneg]
        cases anti pauli.toPhased (Z i) <;> simp [hf.lift_mul]
    · have hanti := anti_eq_false_of_no_qubits hn hp
      simp only [leftMulPauliExp, if_neg hn]
      apply follows_pauliExp_of_frame hf htwo.neg
      · intro i
        rw [hneg, hanti]
        simp
      · intro i
        rw [hneg, hanti]
        simp
  rwa [iPow_two_mul_iPow_two_mul] at hfollows

theorem follows_leftMulControlledPauli {control target : PauliUnitary}
    (hc : control.Below C.numQubits) (ht : target.Below C.numQubits)
    (hc2 : control.toPhased.OrderTwo) (ht2 : target.toPhased.OrderTwo)
    (hct : anti control.toPhased target.toPhased = false) :
    (C.leftMulControlledPauli control target).frame.Follows C.frame
      (controlledPauli control.toPhased target.toPhased) := by
  have haround := controlledPauli_eq_around control.toPhased target.toPhased
  by_cases hn : 0 < C.numQubits
  · have htpre : (C.mulAssignRightPreimage neutralElement target).toPhased =
        C.frame.lift target.toPhased := toPhased_preimage ht
    have hcpre : (C.mulAssignRightPreimage neutralElement control).toPhased =
        C.frame.lift control.toPhased := toPhased_preimage hc
    have hfirst := frame_updatePreimages (C := C) (γ := fun p => p * C.frame.lift target.toPhased)
      (g := fun p => p.mulAssignRight (C.mulAssignRightPreimage neutralElement target))
      (fun p => by rw [toPhased_mulAssignRight, htpre]) hc
    have hsecond := frame_updatePreimages
      (C := C.updatePreimages (fun p => p.mulAssignRight
        (C.mulAssignRightPreimage neutralElement target)) control)
      (γ := fun p => C.frame.lift control.toPhased * p)
      (g := fun p => p.mulAssignLeft (C.mulAssignRightPreimage neutralElement control))
      (fun p => by rw [toPhased_mulAssignLeft, hcpre])
      (show target.Below _ by rw [numQubits_updatePreimages]; exact ht)
    simp only [leftMulControlledPauli, if_pos hn]
    apply follows_controlledPauli_of_frame hf hc2 ht2 hct
    · intro i
      rw [(hsecond i).1, (hfirst i).1, haround]
      cases anti control.toPhased (X i) <;> cases anti target.toPhased (X i) <;>
        simp [hf.lift_mul]
    · intro i
      rw [(hsecond i).2, (hfirst i).2, haround]
      cases anti control.toPhased (Z i) <;> cases anti target.toPhased (Z i) <;>
        simp [hf.lift_mul]
  · have hcanti := anti_eq_false_of_no_qubits hn hc
    have htanti := anti_eq_false_of_no_qubits hn ht
    simp only [leftMulControlledPauli, if_neg hn]
    apply follows_controlledPauli_of_frame hf hc2 ht2 hct
    · intro i
      rw [haround, hcanti, htanti]
      simp
    · intro i
      rw [haround, hcanti, htanti]
      simp

end MultiQubit

/-- Assign new preimages to the qubits of a support, one after the other. -/
def assignPreimages (C : CliffordUnitary) (support : List ℕ)
    (newPreimages : List (PauliUnitary × PauliUnitary)) :
    CliffordUnitary :=
  (support.zip newPreimages).foldl
    (fun C entry =>
      (C.setPreimageX entry.1 entry.2.1.assigned).setPreimageZ entry.1 entry.2.2.assigned) C

theorem numQubits_assignPreimages (C : CliffordUnitary) (support : List ℕ)
    (newPreimages : List (PauliUnitary × PauliUnitary)) :
    (C.assignPreimages support newPreimages).numQubits = C.numQubits := by
  induction support generalizing C newPreimages with
  | nil => rfl
  | cons elt support ih =>
    cases newPreimages with
    | nil => rfl
    | cons entry newPreimages => exact ih _ newPreimages

theorem frame_assignPreimages
    (newPreimages : List (PauliUnitary × PauliUnitary)) (hnodup : support.Nodup)
    (hlt : ∀ q ∈ support, q < C.numQubits) (hlen : newPreimages.length = support.length) (j : ℕ) :
    (C.assignPreimages support newPreimages).frame.x j = (if j ∈ support then
          (newPreimages.getD (support.idxOf j) (⟨0, 0, 0⟩, ⟨0, 0, 0⟩)).1.toPhased
        else C.frame.x j) ∧ (C.assignPreimages support newPreimages).frame.z j =
        (if j ∈ support then (newPreimages.getD (support.idxOf j) (⟨0, 0, 0⟩, ⟨0, 0, 0⟩)).2.toPhased
        else C.frame.z j) := by
  induction support generalizing C newPreimages with
  | nil => exact ⟨rfl, rfl⟩
  | cons elt support ih =>
    cases newPreimages with
    | nil => simp at hlen
    | cons entry newPreimages =>
      obtain ⟨habsent, hnodup⟩ := nodup_cons.mp hnodup
      have helt : elt < C.numQubits := hlt elt (by simp)
      obtain ⟨hx, hz⟩ := ih
        (C := (C.setPreimageX elt entry.1.assigned).setPreimageZ elt entry.2.assigned)
        newPreimages hnodup (fun q hq => hlt q (by simp [hq])) (by simpa using hlen)
      by_cases hj : j = elt
      · subst hj
        constructor
        · refine hx.trans ?_
          rw [if_neg habsent, frame_x_setPreimageZ (by simpa using helt),
            frame_x_setPreimageX helt]
          simp
        · refine hz.trans ?_
          rw [if_neg habsent, frame_z_setPreimageZ (by simpa using helt)]
          simp
      · have hidx : (elt :: support).idxOf j = support.idxOf j + 1 := by
          rw [idxOf_cons_ne _ (Ne.symm hj)]
        constructor
        · refine hx.trans ?_
          rw [frame_x_setPreimageZ (by simpa using helt), frame_x_setPreimageX helt, hidx]
          simp [hj]
        · refine hz.trans ?_
          rw [frame_z_setPreimageZ (by simpa using helt), frame_z_setPreimageX helt, hidx]
          simp [hj]

/-- The sequence is a permutation of its indices. -/
def isPermutation (sequence : List ℕ) : Bool :=
  sequence.insertionSort (· ≤ ·) == List.range sequence.length

def neighboursDiffer : List ℕ → Bool
  | a :: b :: l => a != b && neighboursDiffer (b :: l)
  | _ => true

/-- The sequence has no repeated entry. -/
def hasNoDuplicates (sequence : List ℕ) : Bool :=
  neighboursDiffer (sequence.insertionSort (· ≤ ·))

theorem isPermutation_iff {sequence : List ℕ} :
    isPermutation sequence = true ↔ sequence.Perm (List.range sequence.length) := by
  unfold isPermutation
  rw [beq_iff_eq]
  constructor
  · intro h
    have hperm := perm_insertionSort (· ≤ ·) sequence
    rw [h] at hperm
    exact hperm.symm
  · intro h
    have hsorted : (List.range sequence.length).Pairwise (· ≤ ·) :=
      pairwise_le_range
    exact List.Perm.eq_of_pairwise' (pairwise_insertionSort (· ≤ ·) sequence) hsorted
      ((perm_insertionSort (· ≤ ·) sequence).trans h)

theorem neighboursDiffer_iff {l : List ℕ} (hl : l.Pairwise (· ≤ ·)) :
    neighboursDiffer l = true ↔ l.Nodup := by
  induction l with
  | nil => simp [neighboursDiffer]
  | cons a l ih =>
    obtain ⟨ha, hl⟩ := pairwise_cons.mp hl
    cases l with
    | nil => simp [neighboursDiffer]
    | cons b l =>
      have hb := (pairwise_cons.mp hl).1
      rw [neighboursDiffer, Bool.and_eq_true, bne_iff_ne, ih hl, nodup_cons (a := a)]
      refine and_congr_left fun _ => ?_
      constructor
      · intro hne hmem
        rcases mem_cons.mp hmem with rfl | hmem
        · exact hne rfl
        · have hab := ha b (by simp)
          have hba := hb a hmem
          omega
      · rintro hmem rfl
        exact hmem (by simp)

theorem hasNoDuplicates_iff {sequence : List ℕ} :
    hasNoDuplicates sequence = true ↔ sequence.Nodup := by
  unfold hasNoDuplicates
  rw [neighboursDiffer_iff (pairwise_insertionSort (· ≤ ·) sequence)]
  exact (perm_insertionSort (· ≤ ·) sequence).nodup_iff

/-- The preimages that a permutation moves onto a support. -/
def permutedPreimages (C : CliffordUnitary) (permutation support : List ℕ) :
    List (PauliUnitary × PauliUnitary) :=
  (List.range support.length).map fun eltIndex =>
    let source := support.getD (permutation.getD eltIndex 0) 0
    (C.preimageXView source, C.preimageZView source)

/-- Left multiplication by a permutation of a support; `none` is a failed assertion. -/
def leftMulPermutation (C : CliffordUnitary) (permutation support : List ℕ) :
    Option CliffordUnitary :=
  if isPermutation permutation && hasNoDuplicates support &&
      permutation.length == support.length then
    some (C.assignPreimages support (C.permutedPreimages permutation support))
  else none

/-- The qubit from which a permutation of a support takes the preimages of a qubit. -/
def permutationSource (permutation support : List ℕ) (j : ℕ) : ℕ :=
  if j ∈ support then support.getD (permutation.getD (support.idxOf j) 0) 0 else j

section Permutation

variable {permutation support : List ℕ}
variable (hperm : permutation.Perm (List.range permutation.length)) (hnodup : support.Nodup)
variable (hlen : permutation.length = support.length)

include hperm hlen

theorem permutationSource_of_mem {j : ℕ} (hj : j ∈ support) :
    ∃ (e : ℕ) (he : e < support.length), permutation.getD (support.idxOf j) 0 = e ∧
      permutationSource permutation support j = support[e] := by
  have hidx : support.idxOf j < permutation.length := by
    rw [hlen]
    exact idxOf_lt_length_of_mem hj
  have hmem : permutation.getD (support.idxOf j) 0 ∈ permutation := by
    rw [getD_eq_getElem _ _ hidx]
    exact getElem_mem hidx
  have hlt : permutation.getD (support.idxOf j) 0 < support.length := by
    rw [← hlen]
    exact mem_range.mp (hperm.mem_iff.mp hmem)
  refine ⟨_, hlt, rfl, ?_⟩
  rw [permutationSource, if_pos hj, getD_eq_getElem _ _ hlt]

include hnodup

theorem permutationSource_injective :
    Function.Injective (permutationSource permutation support) := by
  have hpermNodup : permutation.Nodup := hperm.nodup_iff.mpr nodup_range
  have hstay : ∀ j, j ∉ support → permutationSource permutation support j = j := by
    intro j hj
    rw [permutationSource, if_neg hj]
  intro i j h
  by_cases hi : i ∈ support
  · obtain ⟨e, he, hei, hi'⟩ := permutationSource_of_mem hperm hlen hi
    by_cases hj : j ∈ support
    · obtain ⟨e', he', hej, hj'⟩ := permutationSource_of_mem hperm hlen hj
      rw [hi', hj', List.Nodup.getElem_inj_iff hnodup] at h
      have hilt : support.idxOf i < permutation.length := by
        rw [hlen]
        exact idxOf_lt_length_of_mem hi
      have hjlt : support.idxOf j < permutation.length := by
        rw [hlen]
        exact idxOf_lt_length_of_mem hj
      rw [← hei, ← hej, getD_eq_getElem _ _ hilt, getD_eq_getElem _ _ hjlt,
        List.Nodup.getElem_inj_iff hpermNodup] at h
      exact (idxOf_inj hi).mp h
    · rw [hi', hstay j hj] at h
      exact absurd (h ▸ getElem_mem he) hj
  · by_cases hj : j ∈ support
    · obtain ⟨e, he, _, hj'⟩ := permutationSource_of_mem hperm hlen hj
      rw [hj', hstay i hi] at h
      exact absurd (h ▸ getElem_mem he) hi
    · rwa [hstay i hi, hstay j hj] at h

theorem permutationSource_surjective :
    Function.Surjective (permutationSource permutation support) := by
  intro j
  by_cases hj : j ∈ support
  · have hfin : {i | i ∈ support}.Finite := support.finite_toSet
    have hmaps : Set.MapsTo (permutationSource permutation support) {i | i ∈ support}
        {i | i ∈ support} := by
      intro i hi
      obtain ⟨e, he, _, hi'⟩ := permutationSource_of_mem hperm hlen hi
      rw [hi']
      exact getElem_mem he
    have honto := (hfin.injOn_iff_bijOn_of_mapsTo hmaps).mp
      (permutationSource_injective hperm hnodup hlen).injOn
    obtain ⟨i, _, hi⟩ := honto.surjOn hj
    exact ⟨i, hi⟩
  · exact ⟨j, by rw [permutationSource, if_neg hj]⟩

noncomputable def permutationSourceEquiv : Equiv.Perm ℕ :=
  Equiv.ofBijective (permutationSource permutation support)
    ⟨permutationSource_injective hperm hnodup hlen, permutationSource_surjective hperm hnodup hlen⟩

theorem frame_assignPreimages_permuted {C : CliffordUnitary}
    (hlt : ∀ q ∈ support, q < C.numQubits) :
    (C.assignPreimages support (C.permutedPreimages permutation support)).frame =
      C.frame.relabel (permutationSourceEquiv hperm hnodup hlen) := by
  have hentries := frame_assignPreimages (C := C)
    (C.permutedPreimages permutation support) hnodup hlt
    (by simp [permutedPreimages])
  have hget : ∀ j, j ∈ support →
      (C.permutedPreimages permutation support).getD (support.idxOf j) (⟨0, 0, 0⟩, ⟨0, 0, 0⟩) =
        (C.preimageXView (permutationSource permutation support j),
          C.preimageZView (permutationSource permutation support j)) := by
    intro j hj
    have hidx : support.idxOf j < support.length := idxOf_lt_length_of_mem hj
    rw [getD_eq_getElem _ _ (by simpa [permutedPreimages] using hidx)]
    simp only [permutedPreimages, getElem_map, getElem_range, permutationSource, if_pos hj]
  have hsource : ∀ j, j ∈ support → permutationSource permutation support j < C.numQubits := by
    intro j hj
    obtain ⟨e, he, _, hj'⟩ := permutationSource_of_mem hperm hlen hj
    rw [hj']
    exact hlt _ (getElem_mem he)
  have hstay : ∀ j, j ∉ support → permutationSource permutation support j = j := by
    intro j hj
    rw [permutationSource, if_neg hj]
  apply GeneratorFrame.ext
  · funext j
    rw [(hentries j).1]
    change _ = C.frame.x (permutationSource permutation support j)
    by_cases hj : j ∈ support
    · rw [if_pos hj, hget j hj, frame_x (hsource j hj)]
    · rw [if_neg hj, hstay j hj]
  · funext j
    rw [(hentries j).2]
    change _ = C.frame.z (permutationSource permutation support j)
    by_cases hj : j ∈ support
    · rw [if_pos hj, hget j hj, frame_z (hsource j hj)]
    · rw [if_neg hj, hstay j hj]

end Permutation

theorem leftMulPermutation_eq_some_iff {C' : CliffordUnitary} {permutation : List ℕ} :
    C.leftMulPermutation permutation support = some C' ↔
      permutation.Perm (List.range permutation.length) ∧ support.Nodup ∧
        permutation.length = support.length ∧
          C' = C.assignPreimages support (C.permutedPreimages permutation support) := by
  unfold leftMulPermutation
  split_ifs with h
  · simp only [Bool.and_eq_true, isPermutation_iff, hasNoDuplicates_iff, beq_iff_eq] at h
    obtain ⟨⟨hperm, hnodup⟩, hlen⟩ := h
    rw [Option.some_inj]
    constructor
    · rintro rfl
      exact ⟨hperm, hnodup, hlen, rfl⟩
    · rintro ⟨_, _, _, rfl⟩
      rfl
  · simp only [Bool.and_eq_true, isPermutation_iff, hasNoDuplicates_iff, beq_iff_eq] at h
    constructor
    · intro hnone
      contradiction
    · rintro ⟨hperm, hnodup, hlen, _⟩
      exact absurd ⟨⟨hperm, hnodup⟩, hlen⟩ h

/-- Move a Pauli onto the qubits of a support. -/
def sparsePauliOnSupport (pauli : PauliUnitary) (support : List ℕ) : PauliUnitary where
  xBits := Bits.fromIndices (pauli.xBits.support.map fun bit => support.getD bit 0)
  zBits := Bits.fromIndices (pauli.zBits.support.map fun bit => support.getD bit 0)
  xzPhaseExp := PauliUnitary.phaseValue pauli.xzPhaseExp

theorem toPhased_sparsePauliOnSupport (pauli : PauliUnitary) (support : List ℕ) :
    (sparsePauliOnSupport pauli support).toPhased =
      pauli.toPhased.remap fun e => support.getD e 0 := by
  ext1
  · simp [sparsePauliOnSupport, PhasedPauli.remap]
  · rfl
  · rfl

/-- The preimages that a Clifford unitary moves onto a support. -/
def composedPreimages (C clifford : CliffordUnitary) (support : List ℕ) :
    List (PauliUnitary × PauliUnitary) :=
  (List.range support.length).map fun eltIndex =>
    (C.preimage (sparsePauliOnSupport (clifford.preimageXView eltIndex) support),
      C.preimage (sparsePauliOnSupport (clifford.preimageZView eltIndex) support))

/-- Left multiplication by a Clifford unitary on a support; `none` is a failed assertion. -/
def leftMulClifford (C clifford : CliffordUnitary) (support : List ℕ) : Option CliffordUnitary :=
  if support.length == clifford.numQubits && hasNoDuplicates support then
    some (C.assignPreimages support (C.composedPreimages clifford support))
  else none

theorem leftMulClifford_eq_some_iff {C' : CliffordUnitary} :
    C.leftMulClifford clifford support = some C' ↔
      support.length = clifford.numQubits ∧ support.Nodup ∧
        C' = C.assignPreimages support (C.composedPreimages clifford support) := by
  unfold leftMulClifford
  split_ifs with h
  · simp only [Bool.and_eq_true, hasNoDuplicates_iff, beq_iff_eq] at h
    simp [h.1, h.2, eq_comm]
  · simp only [Bool.and_eq_true, hasNoDuplicates_iff, beq_iff_eq] at h
    constructor
    · intro hnone
      contradiction
    · rintro ⟨hlen, hnodup, _⟩
      exact absurd ⟨hlen, hnodup⟩ h

theorem below_remap_getD {n : ℕ} (hlt : ∀ q ∈ support, q < n) {p : PhasedPauli}
    (hp : p.Below support.length) : (p.remap fun e => support.getD e 0).Below n := by
  have hbits : ∀ b : Bits, b.Below support.length →
      (b.remap fun e => support.getD e 0).Below n := by
    intro b hb
    rw [Bits.below_iff]
    intro i hi
    cases hc : (b.remap fun e => support.getD e 0).index i with
    | false => rfl
    | true =>
      obtain ⟨e, he, hei⟩ := (Bits.index_remap _ _ _).mp hc
      have helt : e < support.length := hb.lt_of_index he
      rw [getD_eq_getElem _ _ helt] at hei
      have := hlt _ (getElem_mem helt)
      omega
  exact ⟨hbits _ hp.1, hbits _ hp.2⟩

theorem frame_assignPreimages_composed
    (hclifford : clifford.frame.Valid) (hnodup : support.Nodup)
    (hlt : ∀ q ∈ support, q < C.numQubits) (hlen : support.length = clifford.numQubits) :
    (C.assignPreimages support (C.composedPreimages clifford support)).frame =
      C.frame.comp (onSupport support clifford.frame) := by
  have hentries := frame_assignPreimages (C := C)
    (C.composedPreimages clifford support) hnodup hlt
    (by simp [composedPreimages])
  have hpad := paddingClear_of_frame hclifford
  have hpre : ∀ p : PauliUnitary, p.Below support.length →
      (C.preimage (sparsePauliOnSupport p support)).toPhased =
        C.frame.lift (p.toPhased.remap fun e => support.getD e 0) := by
    intro p hp
    rw [toPhased_preimage, toPhased_sparsePauliOnSupport]
    unfold PauliUnitary.Below
    rw [toPhased_sparsePauliOnSupport]
    exact below_remap_getD hlt hp
  apply GeneratorFrame.ext
  · funext j
    rw [(hentries j).1]
    by_cases hj : j ∈ support
    · have hidx : support.idxOf j < support.length := idxOf_lt_length_of_mem hj
      have hidx' : support.idxOf j < clifford.numQubits := by omega
      rw [if_pos hj, getD_eq_getElem _ _ (by simpa [composedPreimages] using hidx)]
      simp only [composedPreimages, getElem_map, getElem_range]
      rw [hpre _ (by rw [hlen]; exact (hpad _ hidx').1)]
      simp [comp, onSupport, hj, frame_x hidx']
    · simp [comp, onSupport, hj]
  · funext j
    rw [(hentries j).2]
    by_cases hj : j ∈ support
    · have hidx : support.idxOf j < support.length := idxOf_lt_length_of_mem hj
      have hidx' : support.idxOf j < clifford.numQubits := by omega
      rw [if_pos hj, getD_eq_getElem _ _ (by simpa [composedPreimages] using hidx)]
      simp only [composedPreimages, getElem_map, getElem_range]
      rw [hpre _ (by rw [hlen]; exact (hpad _ hidx').2)]
      simp [comp, onSupport, hj, frame_z hidx']
    · simp [comp, onSupport, hj]

/-- The images of the generators, continued by the identity beyond the last qubit. -/
def imageFrame (C : CliffordUnitary) : GeneratorFrame where
  x i := if i < C.numQubits then (C.imageX i).toPhased else X i
  z i := if i < C.numQubits then (C.imageZ i).toPhased else Z i

theorem fixesFrom_imageFrame (C : CliffordUnitary) : C.imageFrame.FixesFrom C.numQubits := by
  intro i hi
  simp [imageFrame, Nat.not_lt.mpr hi]

section ImageFrame

variable {C : CliffordUnitary} (hf : C.frame.Valid)

include hf

theorem imageFrame_eq_ofMap : C.imageFrame = ofMap (hf.inverseHom C.fixesFrom_frame) := by
  apply GeneratorFrame.ext
  · funext i
    apply hf.lift_injective
    refine Eq.trans ?_ (hf.lift_inverseHom C.fixesFrom_frame (X i)).symm
    by_cases hi : i < C.numQubits
    · simpa [imageFrame, hi] using toPhased_imageX hf hi
    · simp [imageFrame, hi, frame_x_of_le (Nat.not_lt.mp hi)]
  · funext i
    apply hf.lift_injective
    refine Eq.trans ?_ (hf.lift_inverseHom C.fixesFrom_frame (Z i)).symm
    by_cases hi : i < C.numQubits
    · simpa [imageFrame, hi] using toPhased_imageZ hf hi
    · simp [imageFrame, hi, frame_z_of_le (Nat.not_lt.mp hi)]

theorem valid_imageFrame : C.imageFrame.Valid := by
  rw [imageFrame_eq_ofMap hf]
  exact valid_ofMap (hf.inverseHom_iPow C.fixesFrom_frame)

variable (p : PhasedPauli)

theorem lift_imageFrame :
    C.imageFrame.lift p = hf.inverseHom C.fixesFrom_frame p := by
  rw [imageFrame_eq_ofMap hf, lift_ofMap (hf.inverseHom_iPow C.fixesFrom_frame)]

theorem lift_frame_lift_imageFrame : C.frame.lift (C.imageFrame.lift p) = p := by
  rw [lift_imageFrame hf, hf.lift_inverseHom]

theorem lift_imageFrame_lift_frame : C.imageFrame.lift (C.frame.lift p) = p := by
  rw [lift_imageFrame hf, hf.inverseHom_lift]

theorem toPhased_image (hp : pauli.Below C.numQubits) :
    (C.image pauli).toPhased = C.imageFrame.lift pauli.toPhased := by
  apply hf.lift_injective
  rw [lift_image hf hp, lift_frame_lift_imageFrame hf]

end ImageFrame

theorem follows_assignPreimages_composed
    (hf : C.frame.Valid) (hclifford : clifford.frame.Valid) (hnodup : support.Nodup)
    (hlt : ∀ q ∈ support, q < C.numQubits) (hlen : support.length = clifford.numQubits) :
    (C.assignPreimages support (C.composedPreimages clifford support)).frame.Follows C.frame
      (onSupport support clifford.imageFrame).lift := by
  have hfix : clifford.frame.FixesFrom support.length := by
    rw [hlen]
    exact clifford.fixesFrom_frame
  have hifix : clifford.imageFrame.FixesFrom support.length := by
    rw [hlen]
    exact clifford.fixesFrom_imageFrame
  apply follows_of_comp hf
    (valid_onSupport hnodup hclifford hfix)
    (frame_assignPreimages_composed hclifford hnodup hlt hlen)
  exact lift_onSupport_lift_onSupport hnodup hclifford hfix
    (valid_imageFrame hclifford) hifix (lift_frame_lift_imageFrame hclifford)

end CliffordUnitary

end QdkEc
