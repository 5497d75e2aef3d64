import QdkEc.Lib.StabilizerMachine

/-!
# Machines that differ by a frame

This module compares two stabilizer machines that run the same program while Paulis
are inserted into the second one.  The second machine is the first one with a Pauli
applied and some outcomes flipped, provided that its random bits are flipped where the
outcomes of random measurements are.
-/

namespace QdkEc

open PhasedPauli List

def flipOutcomes (deltas : ℕ → Bool) (outcomes : List Bool) : List Bool :=
  outcomes.mapIdx fun id outcome => outcome ^^ deltas id

@[simp]
theorem length_flipOutcomes (deltas : ℕ → Bool) (outcomes : List Bool) :
    (flipOutcomes deltas outcomes).length = outcomes.length :=
  length_mapIdx

theorem flipOutcomes_concat (deltas : ℕ → Bool) (outcomes : List Bool) (outcome : Bool) :
    flipOutcomes deltas (outcomes ++ [outcome]) =
      flipOutcomes deltas outcomes ++ [outcome ^^ deltas outcomes.length] :=
  mapIdx_concat

theorem flipOutcomes_congr {deltas deltas' : ℕ → Bool} {outcomes : List Bool}
    (h : ∀ id, id < outcomes.length → deltas id = deltas' id) :
    flipOutcomes deltas outcomes = flipOutcomes deltas' outcomes := by
  refine ext_getElem (by simp) fun id hid _ => ?_
  rw [length_flipOutcomes] at hid
  simp [flipOutcomes, h id hid]

def flipParity (deltas : ℕ → Bool) (ids : List ℕ) : Bool :=
  ids.foldl (fun parity id => parity ^^ deltas id) false

theorem totalParity_flipOutcomes (deltas : ℕ → Bool) {outcomes : List Bool} {ids : List ℕ}
    (hids : ∀ id ∈ ids, id < outcomes.length) :
    StabilizerMachine.totalParity (flipOutcomes deltas outcomes) ids =
      (StabilizerMachine.totalParity outcomes ids ^^ flipParity deltas ids) := by
  have hloop : ∀ (ids : List ℕ) (a b : Bool), (∀ id ∈ ids, id < outcomes.length) →
      ids.foldl (fun parity id => parity ^^ (flipOutcomes deltas outcomes).getD id false)
          (a ^^ b) =
        (ids.foldl (fun parity id => parity ^^ outcomes.getD id false) a ^^
          ids.foldl (fun parity id => parity ^^ deltas id) b) := by
    intro ids
    induction ids with
    | nil =>
      intro a b _
      rfl
    | cons id ids ih =>
      intro a b hids
      have hid := hids id mem_cons_self
      have hget : (flipOutcomes deltas outcomes).getD id false =
          (outcomes.getD id false ^^ deltas id) := by
        simp [flipOutcomes, getD_eq_getElem?_getD, hid]
      have hstep : ((a ^^ b) ^^ (outcomes.getD id false ^^ deltas id)) =
          ((a ^^ outcomes.getD id false) ^^ (b ^^ deltas id)) := by
        cases a <;> cases b <;> simp
      rw [foldl_cons, foldl_cons, foldl_cons, hget, hstep]
      exact ih _ _ fun id hid => hids id (mem_cons_of_mem _ hid)
  exact hloop ids false false hids

/-- Two sources of random bits differ by the flips of the random outcomes. -/
def MatchingBits (introducesBranchBit : List Bool) (deltas bits bits' : ℕ → Bool) : Prop :=
  ∀ id, introducesBranchBit[id]? = some true →
    bits' ((introducesBranchBit.take id).count true) =
      (bits ((introducesBranchBit.take id).count true) ^^ deltas id)

section MatchingBits

variable {introducesBranchBit : List Bool} {deltas deltas' bits bits' : ℕ → Bool}

theorem MatchingBits.of_concat {random : Bool}
    (h : MatchingBits (introducesBranchBit ++ [random]) deltas bits bits') :
    MatchingBits introducesBranchBit deltas bits bits' := by
  intro id hid
  obtain ⟨hlt, -⟩ := List.getElem?_eq_some_iff.mp hid
  have hlonger := h id (by rw [List.getElem?_append_left hlt, hid])
  rwa [List.take_append_of_le_length hlt.le] at hlonger

theorem MatchingBits.last (h : MatchingBits (introducesBranchBit ++ [true]) deltas bits bits') :
    bits' (introducesBranchBit.count true) =
      (bits (introducesBranchBit.count true) ^^ deltas introducesBranchBit.length) := by
  simpa using h introducesBranchBit.length (by simp)

/-- Only the flips of recorded outcomes matter. -/
theorem MatchingBits.congr (h : MatchingBits introducesBranchBit deltas bits bits')
    (hdeltas : ∀ id, id < introducesBranchBit.length → deltas id = deltas' id) :
    MatchingBits introducesBranchBit deltas' bits bits' := by
  intro id hid
  obtain ⟨hlt, -⟩ := List.getElem?_eq_some_iff.mp hid
  rw [h id hid, hdeltas id hlt]

theorem exists_matchingBits (introducesBranchBit : List Bool) (deltas : ℕ → Bool) :
    ∃ flips : Bits, flips.Below (introducesBranchBit.count true) ∧
      ∀ r : Bits, MatchingBits introducesBranchBit deltas r.index (r + flips).index := by
  induction introducesBranchBit using List.reverseRecOn with
  | nil => exact ⟨0, Bits.below_zero 0, fun r id hid => absurd hid (by simp)⟩
  | append_singleton introducesBranchBit random ih =>
    obtain ⟨flips, hbelow, hmatching⟩ := ih
    cases hflip : random && deltas introducesBranchBit.length with
    | false =>
      refine ⟨flips, hbelow.mono (by simp), fun r id hid => ?_⟩
      rcases Nat.lt_or_ge id introducesBranchBit.length with hlt | hge
      · rw [List.getElem?_append_left hlt] at hid
        rw [List.take_append_of_le_length hlt.le]
        exact hmatching r id hid
      · obtain ⟨hid', hrandom⟩ := List.getElem?_eq_some_iff.mp hid
        obtain rfl : id = introducesBranchBit.length := by
          simp only [List.length_append, List.length_singleton] at hid'
          omega
        rw [List.getElem_concat_length (by rfl)] at hrandom
        subst hrandom
        rw [Bool.true_and] at hflip
        simp [hflip, hbelow.index_eq_false le_rfl]
    | true =>
      rw [Bool.and_eq_true] at hflip
      obtain ⟨rfl, hdelta⟩ := hflip
      refine ⟨flips + Bits.unit (introducesBranchBit.count true), ?_, fun r id hid => ?_⟩
      · refine (hbelow.mono (by simp)).add (Bits.below_unit.mpr (by simp))
      · rcases Nat.lt_or_ge id introducesBranchBit.length with hlt | hge
        · rw [List.getElem?_append_left hlt] at hid
          have hcount : (introducesBranchBit.take id).count true <
              introducesBranchBit.count true := by
            obtain ⟨_, hget⟩ := List.getElem?_eq_some_iff.mp hid
            have hsplit := List.take_append_drop id introducesBranchBit
            conv_rhs => rw [← hsplit, List.drop_eq_getElem_cons hlt, hget]
            simp
          rw [List.take_append_of_le_length hlt.le, ← add_assoc, Bits.index_add,
            hmatching r id hid, Bits.index_unit, decide_eq_false hcount.ne', Bool.xor_false]
        · obtain ⟨hid', -⟩ := List.getElem?_eq_some_iff.mp hid
          obtain rfl : id = introducesBranchBit.length := by
            simp only [List.length_append, List.length_singleton] at hid'
            omega
          simp [hdelta, hbelow.index_eq_false le_rfl]

end MatchingBits

section Conjugated

variable {S : Set PhasedPauli} {frame P : PhasedPauli}

theorem anti_conjugate (frame P x : PhasedPauli) : anti P (conjugate frame x) = anti P x := by
  rw [conjugate_apply, anti_mul_right, anti_iPow_right, Bool.false_xor]

theorem mem_image_conjugate {x : PhasedPauli} :
    x ∈ conjugate frame '' S ↔ conjugate frame x ∈ S := by
  constructor
  · rintro ⟨y, hy, rfl⟩
    rwa [conjugate_conjugate]
  · exact fun hx => ⟨_, hx, conjugate_conjugate frame x⟩

theorem sign_mem_image_conjugate (b : Bool) :
    iPow (twist b) * P ∈ conjugate frame '' S ↔ iPow (twist (b ^^ anti frame P)) * P ∈ S := by
  rw [mem_image_conjugate, map_mul, conjugate_iPow, conjugate_apply, ← mul_assoc, ← iPow_add,
    twist_xor]

theorem determined_image_conjugate : Determined (conjugate frame '' S) P ↔ Determined S P := by
  constructor
  · rintro ⟨b, hb⟩
    exact ⟨_, (sign_mem_image_conjugate b).mp hb⟩
  · rintro ⟨b, hb⟩
    refine ⟨b ^^ anti frame P, (sign_mem_image_conjugate _).mpr ?_⟩
    rwa [Bool.xor_assoc, Bool.xor_self, Bool.xor_false]

theorem measured_image_conjugate (outcome : Bool) :
    measured (conjugate frame '' S) P (outcome ^^ anti frame P) =
      conjugate frame '' measured S P outcome := by
  ext x
  have hcomm : anti P (conjugate frame x) = anti P x := anti_conjugate frame P x
  have hproduct : conjugate frame (iPow (twist (outcome ^^ anti frame P)) * (P * x)) =
      iPow (twist outcome) * (P * conjugate frame x) := by
    rw [map_mul, map_mul, conjugate_iPow, conjugate_apply frame P, mul_assoc (iPow (twist _)) P,
      ← mul_assoc, ← iPow_add, ← twist_xor, Bool.xor_assoc, Bool.xor_self, Bool.xor_false]
  simp only [measured, Set.mem_ofPred_eq, mem_image_conjugate, hcomm, hproduct]

end Conjugated

namespace StabilizerMachine

/-- The second machine is the first one with a Pauli applied and some outcomes flipped. -/
structure Framed (frame : PhasedPauli) (deltas : ℕ → Bool) (m m' : StabilizerMachine) : Prop where
  stabilizers : m'.stabilizers = conjugate frame '' m.stabilizers
  outcomes : m'.outcomes = flipOutcomes deltas m.outcomes
  introducesBranchBit : m'.introducesBranchBit = m.introducesBranchBit

section Framed

variable {frame frame' P : PhasedPauli} {deltas deltas' bits bits' : ℕ → Bool}
  {m m' : StabilizerMachine}

section

variable (h : Framed frame deltas m m')

include h

theorem Framed.congr (hframe : conjugate frame = conjugate frame')
    (hdeltas : ∀ id, id < m.outcomes.length → deltas id = deltas' id) :
    Framed frame' deltas' m m' where
  stabilizers := by rw [h.stabilizers, hframe]
  outcomes := by rw [h.outcomes, flipOutcomes_congr hdeltas]
  introducesBranchBit := h.introducesBranchBit

theorem Framed.applyMap {φ : PhasedPauli → PhasedPauli}
    (hmul : ∀ p q, φ (p * q) = φ p * φ q) :
    Framed (φ frame) deltas (m.applyMap φ) (m'.applyMap φ) where
  stabilizers := by
    have hconjugate : ∀ p, φ (conjugate frame p) = conjugate (φ frame) (φ p) := by
      intro p
      let hom := MonoidHom.mk' φ hmul
      change hom (frame * p * frame⁻¹) = hom frame * hom p * (hom frame)⁻¹
      rw [map_mul, map_mul, map_inv]
    rw [StabilizerMachine.applyMap, h.stabilizers, StabilizerMachine.applyMap, Set.image_image,
      Set.image_image]
    exact Set.image_congr' hconjugate
  outcomes := h.outcomes
  introducesBranchBit := h.introducesBranchBit

theorem Framed.insert (P : PhasedPauli) :
    Framed (P * frame) deltas m (m'.applyMap (conjugate P)) where
  stabilizers := by
    rw [StabilizerMachine.applyMap, h.stabilizers, Set.image_image]
    exact Set.image_congr' fun p => (conjugate_mul_apply P frame p).symm
  outcomes := h.outcomes
  introducesBranchBit := h.introducesBranchBit

theorem Framed.omit (P : PhasedPauli) :
    Framed (P * frame) deltas (m.applyMap (conjugate P)) m' where
  stabilizers := by
    rw [h.stabilizers, StabilizerMachine.applyMap, Set.image_image]
    refine Set.image_congr' fun p => ?_
    have hcomm : anti P (conjugate frame p) = anti P p := anti_conjugate frame P p
    rw [conjugate_mul_apply, conjugate_apply P p, map_mul, conjugate_iPow, map_mul,
      conjugate_iPow, conjugate_apply P, hcomm, ← mul_assoc, ← iPow_add, twist_add_self,
      iPow_zero, one_mul]
  outcomes := h.outcomes
  introducesBranchBit := h.introducesBranchBit

theorem Framed.branchBitCount :
    m'.branchBitCount = m.branchBitCount := by
  rw [StabilizerMachine.branchBitCount, h.introducesBranchBit, StabilizerMachine.branchBitCount]

theorem Framed.conditionalPauli (P : PhasedPauli) {ids : List ℕ}
    (hids : ∀ id ∈ ids, id < m.outcomes.length) (parity : Bool) :
    Framed (if flipParity deltas ids then P * frame else frame) deltas
      (m.conditionalPauli P ids parity) (m'.conditionalPauli P ids parity) := by
  have hparity := totalParity_flipOutcomes deltas hids
  have hboth : Framed frame deltas (m.applyMap (conjugate P)) (m'.applyMap (conjugate P)) := by
    refine (h.applyMap (map_mul (conjugate P))).congr ?_ fun _ _ => rfl
    rw [conjugate_apply, conjugate_iPow_mul]
  unfold StabilizerMachine.conditionalPauli
  rw [h.outcomes, hparity]
  cases flipParity deltas ids with
  | false =>
    rw [Bool.xor_false, if_neg Bool.false_ne_true]
    split_ifs with happlied
    · exact hboth
    · exact h
  | true =>
    rw [Bool.xor_true, if_pos rfl]
    rcases Bool.eq_or_eq_not (totalParity m.outcomes ids) parity with happlied | hnot
    · rw [if_pos happlied, if_neg (by simp [happlied])]
      exact h.omit P
    · rw [if_neg (by simp [hnot]), if_pos (by simp [hnot])]
      exact h.insert P

theorem Framed.record {outcome outcome' : Bool}
    (houtcome : outcome' = (outcome ^^ deltas m.outcomes.length)) (random : Bool) :
    Framed frame deltas (m.record outcome random) (m'.record outcome' random) where
  stabilizers := h.stabilizers
  outcomes := by
    rw [StabilizerMachine.record, StabilizerMachine.record, h.outcomes, flipOutcomes_concat,
      houtcome]
  introducesBranchBit := by
    rw [StabilizerMachine.record, StabilizerMachine.record, h.introducesBranchBit]

theorem Framed.allocateRandomBit
    (hbits : bits' m.branchBitCount = (bits m.branchBitCount ^^ deltas m.outcomes.length)) :
    Framed frame deltas (m.allocateRandomBit bits) (m'.allocateRandomBit bits') := by
  rw [StabilizerMachine.allocateRandomBit, StabilizerMachine.allocateRandomBit, h.branchBitCount]
  exact h.record hbits true

theorem Framed.measure {S : Subgroup PhasedPauli}
    (hS : IsStabilizerGroup S) (hm : m.stabilizers = S)
    (hdelta : deltas m.outcomes.length = anti frame P) (hbits : ¬ Determined m.stabilizers P →
      bits' m.branchBitCount = (bits m.branchBitCount ^^ deltas m.outcomes.length)) :
    Framed frame deltas (m.measure bits P) (m'.measure bits' P) := by
  by_cases hdetermined : Determined m.stabilizers P
  · obtain ⟨outcome, houtcome⟩ := hdetermined
    have hunique : ∀ b, iPow (twist b) * P ∈ m.stabilizers ↔ b = outcome := by
      refine fun b => ⟨fun hb => ?_, fun hb => hb ▸ houtcome⟩
      rw [hm] at hb houtcome
      exact hS.sign_unique hb houtcome
    have hunique' : ∀ b, iPow (twist b) * P ∈ m'.stabilizers ↔ b = (outcome ^^ anti frame P) := by
      intro b
      rw [h.stabilizers, sign_mem_image_conjugate, hunique]
      cases b <;> cases outcome <;> cases anti frame P <;> simp
    rw [measure_of_determined bits hunique, measure_of_determined bits' hunique']
    exact h.record (by rw [hdelta]) false
  · have hdetermined' : ¬ Determined m'.stabilizers P := by
      rw [h.stabilizers, determined_image_conjugate]
      exact hdetermined
    have hrecord := h.allocateRandomBit (hbits hdetermined)
    rw [measure_of_not_determined bits hdetermined, measure_of_not_determined bits' hdetermined']
    refine ⟨?_, hrecord.outcomes, hrecord.introducesBranchBit⟩
    rw [h.stabilizers, h.branchBitCount, hbits hdetermined, hdelta]
    exact measured_image_conjugate _

end

end Framed

end StabilizerMachine

end QdkEc
