import QdkEc.Paulimer.PauliGroupFactorization

/-!
# Comparison of Pauli groups

This module models equality, the partial order and the join of Pauli groups.
The standard generators of a group depend on the generated group only, and the
numbers that the order compares determine a group among the groups that contain
it.
-/

namespace QdkEc

open PhasedPauli List Subgroup PauliUnitary

namespace PauliGroup

open AlignedBitMatrix

/-- Groups are equal when their standard generators are. -/
def eq (group other : PauliGroup) : Bool :=
  group.standardGenerators.isEqv other.standardGenerators PauliUnitary.equalsTo

/-- The group generated by two groups. -/
def bitOr (group other : PauliGroup) : PauliGroup where
  generators := group.generators ++ other.generators

/-- The number of scalars and the rank. -/
def ranks (group : PauliGroup) : ℕ × ℕ :=
  (group.phases.length, group.binaryRank)

def partialCmp (group other : PauliGroup) : Option Ordering :=
  let ranks := group.ranks
  let otherRanks := other.ranks
  let unionRanks := (group.bitOr other).ranks
  if ranks = otherRanks ∧ ranks = unionRanks then some .eq
  else if ranks.1 ≤ otherRanks.1 ∧ ranks.2 ≤ otherRanks.2 ∧ otherRanks = unionRanks then some .lt
  else if ranks = unionRanks then some .gt
  else none

section StandardGenerators

variable (group : PauliGroup)

theorem generatedBy_eq_closure (generators : List PauliUnitary) : generatedBy generators =
      Subgroup.closure {p | p ∈ generators.map toPhased} := by
  unfold generatedBy
  simp only [mem_map]

theorem toPhased_asSparsePauli_mem {j : ℕ} {exponent : UInt8}
    (hscalar : iPow (phaseResidue exponent - (group.standardProduct j).phase) ∈ group.toSubgroup) :
    (asSparsePauli (group.echelonForm.matrix.row j) exponent group.support).toPhased ∈
      group.toSubgroup := by
  rw [toPhased_asSparsePauli_row]
  exact group.toSubgroup.mul_mem hscalar (group.standardProduct_mem j)

theorem generatedBy_rowPaulis_le (exponents : ℕ → UInt8) (tail : List PauliUnitary)
    (hscalar : ∀ j, j < group.binaryRank →
      iPow (phaseResidue (exponents j) - (group.standardProduct j).phase) ∈ group.toSubgroup)
    (htail : ∀ p ∈ tail, p.toPhased ∈ group.toSubgroup) :
    generatedBy (group.rowPaulis exponents ++ tail) ≤ group.toSubgroup := by
  refine (closure_le _).mpr ?_
  rintro _ ⟨p, hp, rfl⟩
  rcases mem_append.mp hp with hp | hp
  · obtain ⟨j, hj, rfl⟩ := mem_map.mp hp
    exact group.toPhased_asSparsePauli_mem (hscalar j (mem_range.mp hj))
  · exact htail p hp

theorem exists_bits_rowPaulis (exponents : ℕ → UInt8) (tail : List PauliUnitary) {e : PhasedPauli}
    (he : e ∈ group.toSubgroup) : ∃ e' ∈ generatedBy (group.rowPaulis exponents ++ tail),
      e'.xBits = e.xBits ∧ e'.zBits = e.zBits := by
  rw [toSubgroup_eq] at he
  obtain ⟨c, hc, hx, hz⟩ := group.standardFamily.exists_combine he
  let f : ℕ → PhasedPauli := fun j => if j < group.binaryRank then
    (asSparsePauli (group.echelonForm.matrix.row j) (exponents j) group.support).toPhased else 1
  have hf : ∀ j, j < group.generators.length → (f j).xBits = (group.standardProduct j).xBits ∧
      (f j).zBits = (group.standardProduct j).zBits := by
    intro j hj
    by_cases hjr : j < group.binaryRank
    · simp only [f, hjr, if_true, toPhased_asSparsePauli_row, mul_xBits, mul_zBits, iPow_xBits,
        iPow_zBits, zero_add, and_self]
    · simp only [f, hjr, if_false]
      obtain ⟨hx, hz⟩ := group.standardFamily.scalar j (by omega) hj
      exact ⟨hx.symm, hz.symm⟩
  refine ⟨Bits.orderedProd f c, ?_, ?_, ?_⟩
  · refine Bits.orderedProd_induction (Subgroup.one_mem _) (fun _ _ => Subgroup.mul_mem _)
      fun j _ => ?_
    by_cases hjr : j < group.binaryRank
    · simp only [f, hjr, if_true]
      refine mem_generatedBy (mem_append_left _ ?_)
      exact mem_map.mpr ⟨j, mem_range.mpr hjr, rfl⟩
    · simp only [f, hjr, if_false]
      exact Subgroup.one_mem _
  · rw [xBits_orderedProd, hx]
    exact Bits.combine_congr hc fun j hj => (hf j hj).1
  · rw [zBits_orderedProd, hz]
    exact Bits.combine_congr hc fun j hj => (hf j hj).2

theorem reducedPhases_two_mem (htwo : iPow 2 ∈ group.toSubgroup) {j : ℕ}
    (hj : j < group.binaryRank) : iPow (phaseResidue (group.reducedPhases 2 j) -
      (group.standardProduct j).phase) ∈ group.toSubgroup := by
  obtain ⟨b, hb⟩ := (group.phaseResidue_reducedPhases hj).1
  rw [hb, add_sub_cancel_right]
  cases b with
  | false => exact group.toSubgroup.one_mem
  | true => exact htwo

theorem generatedBy_standardGenerators :
    generatedBy group.standardGenerators = group.toSubgroup := by
  have hshape := group.standardShape
  generalize group.standardGenerators = generators at hshape
  cases hshape with
  | imaginary hone =>
    refine eq_of_bits_of_scalars (group.generatedBy_rowPaulis_le _ _ (fun j _ => ?_) ?_)
      (fun e he => group.exists_bits_rowPaulis _ _ he) fun k hk => ?_
    · refine iPow_mem_of_le (G := ⊤) (fun _ => hone) (fun _ => group.iPow_two_mem hone) ?_
      exact mem_top _
    · intro p hp
      rw [mem_singleton.mp hp]
      exact hone
    · have hscalar : iPow 1 ∈ generatedBy
          (group.rowPaulis (group.reducedPhases 1) ++ [scalarPauli 1]) :=
        mem_generatedBy (g := scalarPauli 1) (mem_append_right _ (by simp))
      refine iPow_mem_of_le (fun _ => hscalar) (fun _ => ?_) hk
      have hsquare := Subgroup.mul_mem _ hscalar hscalar
      rwa [← iPow_add] at hsquare
  | reduced hone htwo hreduces =>
    have hle := group.generatedBy_rowPaulis_le _ []
      (fun j hj => group.reducedPhases_two_mem htwo hj) (by simp)
    have hbits := fun e he => group.exists_bits_rowPaulis (group.reducedPhases 2) [] (e := e) he
    rw [append_nil] at hle hbits
    refine eq_of_bits_of_scalars hle hbits fun k hk => ?_
    refine iPow_mem_of_le (fun h => absurd h hone) (fun _ => ?_) hk
    have hmem : ∀ j, j < group.binaryRank →
        (asSparsePauli (group.echelonForm.matrix.row j) (group.reducedPhases 2 j)
          group.support).toPhased ∈ generatedBy (group.rowPaulis (group.reducedPhases 2)) :=
      fun j hj => mem_generatedBy (mem_map.mpr ⟨j, mem_range.mpr hj, rfl⟩)
    rcases hreduces with ⟨i, j, hi, hj, hanti⟩ | ⟨j, hj, horder⟩
    · refine iPow_two_mem_of_anti (hmem i hi) (hmem j hj) ?_
      rw [toPhased_asSparsePauli_row, toPhased_asSparsePauli_row, anti_mul_left, anti_iPow_left,
        Bool.false_xor, anti_mul_right, anti_iPow_right, Bool.false_xor, hanti]
    · refine iPow_two_mem_of_not_orderTwo (hmem j hj) fun h => horder ?_
      obtain ⟨b, hb⟩ := (group.phaseResidue_reducedPhases hj).1
      rw [toPhased_asSparsePauli_row, hb, add_sub_cancel_right] at h
      have hsign := h.sign_mul b
      rwa [← mul_assoc, ← iPow_add, twist_add_self, iPow_zero, one_mul] at hsign
  | negative hone htwo hreduces =>
    refine eq_of_bits_of_scalars (group.generatedBy_rowPaulis_le _ _
      (fun j hj => group.reducedPhases_two_mem htwo hj) ?_)
      (fun e he => group.exists_bits_rowPaulis _ _ he) fun k hk => ?_
    · intro p hp
      rw [mem_singleton.mp hp]
      exact htwo
    · refine iPow_mem_of_le (fun h => absurd h hone) (fun _ => ?_) hk
      exact mem_generatedBy (g := scalarPauli 2) (mem_append_right _ (by simp))
  | positive htwo hrank =>
    have hle := group.generatedBy_rowPaulis_le (group.reducedPhases 4) []
      (fun j hj => by
        rw [(group.phaseResidue_reducedPhases hj).2.1, sub_self]
        exact group.toSubgroup.one_mem) (by simp)
    have hbits := fun e he => group.exists_bits_rowPaulis (group.reducedPhases 4) [] (e := e) he
    rw [append_nil] at hle hbits
    refine eq_of_bits_of_scalars hle hbits fun k hk => ?_
    exact iPow_mem_of_le (fun h => absurd h (mt group.iPow_two_mem htwo))
      (fun h => absurd h htwo) hk
  | @trivial htwo hrank p hp =>
    have hnil : group.rowPaulis (group.reducedPhases 4) = [] := by
      rw [rowPaulis, hrank, range_zero, map_nil]
    have hle := group.generatedBy_rowPaulis_le (group.reducedPhases 4) [p]
      (fun j hj => by omega) (by
        intro p' hp'
        rw [mem_singleton.mp hp', hp]
        exact group.toSubgroup.one_mem)
    have hbits := fun e he => group.exists_bits_rowPaulis (group.reducedPhases 4) [p] (e := e) he
    rw [hnil, nil_append] at hle hbits
    refine eq_of_bits_of_scalars hle hbits fun k hk => ?_
    exact iPow_mem_of_le (fun h => absurd h (mt group.iPow_two_mem htwo))
      (fun h => absurd h htwo) hk

end StandardGenerators

section Canonical

variable (group : PauliGroup)

theorem mem_support_iff {q : ℕ} : q ∈ group.support ↔
      ∃ e ∈ group.toSubgroup, e.xBits.index q = true ∨ e.zBits.index q = true := by
  constructor
  · intro hq
    obtain ⟨p, hp, hbit⟩ := mem_supportOf.mp hq
    exact ⟨p.toPhased, mem_generatedBy hp, hbit⟩
  · rintro ⟨e, he, hq⟩
    rw [toSubgroup_eq] at he
    obtain ⟨t, _, k, _, rfl⟩ := (mem_generated_iff fun i hi => group.operators_of_le hi).mp he
    refine group.mem_support_of_orderedProd t ?_
    rwa [mul_xBits, mul_zBits, iPow_xBits, iPow_zBits, zero_add, zero_add] at hq

theorem mem_rowSpace_echelonForm_iff {v : Bits} :
    v ∈ Bits.rowSpace group.generators.length group.echelonForm.matrix.row ↔
      v.Below (2 * group.support.length) ∧
        ∃ e ∈ group.toSubgroup, decodeX group.support v = e.xBits ∧
          decodeZ group.support v = e.zBits := by
  have hdecode : ∀ c, decodeX group.support (Bits.combine group.echelonForm.matrix.row c) =
        Bits.combine (fun j => (group.standardProduct j).xBits) c ∧
      decodeZ group.support (Bits.combine group.echelonForm.matrix.row c) =
        Bits.combine (fun j => (group.standardProduct j).zBits) c := by
    intro c
    rw [decodeX_combine, decodeZ_combine]
    exact ⟨congrArg (Bits.combine · c) (funext fun j => (group.decode_row j).1),
      congrArg (Bits.combine · c) (funext fun j => (group.decode_row j).2)⟩
  constructor
  · rintro ⟨c, _, rfl⟩
    refine ⟨Bits.below_combine _ fun j _ => group.below_row_echelonForm j,
      Bits.orderedProd group.standardProduct c, ?_, ?_, ?_⟩
    · exact Bits.orderedProd_induction (Subgroup.one_mem _) (fun _ _ => Subgroup.mul_mem _)
        fun j _ => group.standardProduct_mem j
    · rw [xBits_orderedProd, (hdecode c).1]
    · rw [zBits_orderedProd, (hdecode c).2]
  · rintro ⟨hv, e, he, hx, hz⟩
    rw [toSubgroup_eq] at he
    obtain ⟨c, hc, hcx, hcz⟩ := group.standardFamily.exists_combine he
    refine ⟨c, hc, decode_injective group.nodup_support
      (Bits.below_combine _ fun j _ => group.below_row_echelonForm j) hv ?_ ?_⟩
    · exact (hdecode c).1.trans (hcx.symm.trans hx.symm)
    · exact (hdecode c).2.trans (hcz.symm.trans hz.symm)

variable {group} {other : PauliGroup} (hgroups : group.toSubgroup = other.toSubgroup)

include hgroups

theorem support_eq : group.support = other.support := by
  refine congrArg Bits.support (Bits.ext_index fun q => ?_)
  rw [Bool.eq_iff_iff, ← Bits.mem_support, ← Bits.mem_support]
  change q ∈ group.support ↔ q ∈ other.support
  rw [mem_support_iff, mem_support_iff, hgroups]

theorem echelonForm_eq : group.echelonForm.pivots = other.echelonForm.pivots ∧
      group.echelonForm.matrix.row = other.echelonForm.matrix.row := by
  refine group.reduced_echelonForm.unique other.reduced_echelonForm group.binaryRank_le
    other.binaryRank_le (Submodule.ext fun v => ?_)
  rw [mem_rowSpace_echelonForm_iff, mem_rowSpace_echelonForm_iff, support_eq hgroups, hgroups]

theorem binaryRank_eq : group.binaryRank = other.binaryRank :=
  congrArg List.length (echelonForm_eq hgroups).1

theorem rowPaulis_eq {e f : ℕ → UInt8} (hexponents : ∀ j, j < group.binaryRank → e j = f j) :
    group.rowPaulis e = other.rowPaulis f := by
  rw [group.rowPaulis_congr hexponents]
  unfold rowPaulis
  rw [binaryRank_eq hgroups, (echelonForm_eq hgroups).2, support_eq hgroups]

theorem standardProduct_eq (j : ℕ) :
    iPow ((group.standardProduct j).phase - (other.standardProduct j).phase) ∈ group.toSubgroup ∧
      group.standardProduct j =
        iPow ((group.standardProduct j).phase - (other.standardProduct j).phase) *
          other.standardProduct j := by
  have heq : group.standardProduct j =
      iPow ((group.standardProduct j).phase - (other.standardProduct j).phase) *
        other.standardProduct j := by
    refine eq_iPow_mul_of_bits ?_ ?_
    · rw [← (group.decode_row j).1, ← (other.decode_row j).1, support_eq hgroups,
        (echelonForm_eq hgroups).2]
    · rw [← (group.decode_row j).2, ← (other.decode_row j).2, support_eq hgroups,
        (echelonForm_eq hgroups).2]
  refine ⟨?_, heq⟩
  have hmem := group.standardProduct_mem j
  rw [heq, group.toSubgroup.mul_mem_cancel_right] at hmem
  · exact hmem
  · rw [hgroups]
    exact other.standardProduct_mem j

theorem exists_sign_standardProduct (hone : iPow 1 ∉ group.toSubgroup) (j : ℕ) :
    ∃ b, (group.standardProduct j).phase = twist b + (other.standardProduct j).phase ∧
      group.standardProduct j = iPow (twist b) * other.standardProduct j := by
  obtain ⟨hmem, heq⟩ := standardProduct_eq hgroups j
  have hsign : ∃ b, (group.standardProduct j).phase - (other.standardProduct j).phase =
    twist b := by
    by_contra hnone
    have hcases : ∀ k : ZMod 4, (¬ ∃ b, k = twist b) → k = 1 ∨ k = 3 := by decide
    rcases hcases _ hnone with hk | hk
    · exact hone (hk ▸ hmem)
    · have hinv := group.toSubgroup.inv_mem (hk ▸ hmem)
      exact hone hinv
  obtain ⟨b, hb⟩ := hsign
  refine ⟨b, ?_, ?_⟩
  · rw [← hb, sub_add_cancel]
  · rwa [hb] at heq

theorem reducedPhases_two_eq (hone : iPow 1 ∉ group.toSubgroup) {j : ℕ}
    (hj : j < group.binaryRank) : group.reducedPhases 2 j = other.reducedPhases 2 j := by
  obtain ⟨b, hb, _⟩ := exists_sign_standardProduct hgroups hone j
  obtain ⟨hlt, hphase⟩ := group.getD_productPhases (lt_of_lt_of_le hj group.binaryRank_le)
  obtain ⟨hlt', hphase'⟩ := other.getD_productPhases
    (lt_of_lt_of_le (binaryRank_eq hgroups ▸ hj) other.binaryRank_le)
  rw [← hphase, ← hphase'] at hb
  exact (eq_of_phaseResidue_eq hlt hlt' hb).1

theorem reducedPhases_four_eq (htwo : iPow 2 ∉ group.toSubgroup) {j : ℕ}
    (hj : j < group.binaryRank) : group.reducedPhases 4 j = other.reducedPhases 4 j := by
  obtain ⟨b, hb, heq⟩ := exists_sign_standardProduct hgroups (mt group.iPow_two_mem htwo) j
  obtain ⟨hlt, hphase⟩ := group.getD_productPhases (lt_of_lt_of_le hj group.binaryRank_le)
  obtain ⟨hlt', hphase'⟩ := other.getD_productPhases
    (lt_of_lt_of_le (binaryRank_eq hgroups ▸ hj) other.binaryRank_le)
  obtain ⟨hmem, _⟩ := standardProduct_eq hgroups j
  cases b with
  | true =>
    rw [hb, add_sub_cancel_right] at hmem
    exact absurd hmem htwo
  | false =>
    rw [← hphase, ← hphase'] at hb
    unfold reducedPhases
    rw [(eq_of_phaseResidue_eq hlt hlt' hb).2 rfl]

theorem reduces_iff (hone : iPow 1 ∉ group.toSubgroup) : group.Reduces ↔ other.Reduces := by
  have hanti : ∀ i j, anti (group.standardProduct i) (group.standardProduct j) =
      anti (other.standardProduct i) (other.standardProduct j) := by
    intro i j
    obtain ⟨b, _, hb⟩ := exists_sign_standardProduct hgroups hone i
    obtain ⟨c, _, hc⟩ := exists_sign_standardProduct hgroups hone j
    rw [hb, hc, anti_mul_left, anti_iPow_left, Bool.false_xor, anti_mul_right, anti_iPow_right,
      Bool.false_xor]
  have horder : ∀ j, OrderTwo (group.standardProduct j) ↔ OrderTwo (other.standardProduct j) := by
    intro j
    obtain ⟨b, _, hb⟩ := exists_sign_standardProduct hgroups hone j
    rw [hb]
    constructor
    · intro h
      have hsign := h.sign_mul b
      rwa [← mul_assoc, ← iPow_add, twist_add_self, iPow_zero, one_mul] at hsign
    · exact fun h => h.sign_mul b
  unfold Reduces
  simp only [hanti, horder, binaryRank_eq hgroups]

theorem standardGenerators_eq : group.standardGenerators.map toPhased =
      other.standardGenerators.map toPhased := by
  have hrank := binaryRank_eq hgroups
  have hshape := group.standardShape
  have hshape' := other.standardShape
  generalize group.standardGenerators = generators at hshape
  generalize other.standardGenerators = generators' at hshape'
  cases hshape with
  | imaginary hone =>
    cases hshape' with
    | imaginary _ =>
      rw [rowPaulis_eq hgroups (f := other.reducedPhases 1) fun j _ => ?_]
      unfold reducedPhases
      rw [UInt8.mod_one, UInt8.mod_one]
    | reduced hone' => exact absurd (hgroups ▸ hone) hone'
    | negative hone' => exact absurd (hgroups ▸ hone) hone'
    | positive htwo => exact absurd (hgroups ▸ group.iPow_two_mem hone) htwo
    | trivial htwo => exact absurd (hgroups ▸ group.iPow_two_mem hone) htwo
  | reduced hone htwo hreduces =>
    cases hshape' with
    | imaginary hone' => exact absurd (hgroups ▸ hone') hone
    | reduced => rw [rowPaulis_eq hgroups fun j hj => reducedPhases_two_eq hgroups hone hj]
    | negative _ _ hreduces' => exact absurd ((reduces_iff hgroups hone).mp hreduces) hreduces'
    | positive htwo' => exact absurd (hgroups ▸ htwo) htwo'
    | trivial htwo' => exact absurd (hgroups ▸ htwo) htwo'
  | negative hone htwo hreduces =>
    cases hshape' with
    | imaginary hone' => exact absurd (hgroups ▸ hone') hone
    | reduced _ _ hreduces' => exact absurd ((reduces_iff hgroups hone).mpr hreduces') hreduces
    | negative => rw [rowPaulis_eq hgroups fun j hj => reducedPhases_two_eq hgroups hone hj]
    | positive htwo' => exact absurd (hgroups ▸ htwo) htwo'
    | trivial htwo' => exact absurd (hgroups ▸ htwo) htwo'
  | positive htwo hpos =>
    cases hshape' with
    | imaginary hone' => exact absurd (hgroups ▸ other.iPow_two_mem hone') htwo
    | reduced _ htwo' => exact absurd (hgroups ▸ htwo') htwo
    | negative _ htwo' => exact absurd (hgroups ▸ htwo') htwo
    | positive => rw [rowPaulis_eq hgroups fun j hj => reducedPhases_four_eq hgroups htwo hj]
    | trivial _ hzero => exact absurd (hrank.trans hzero) hpos
  | @trivial htwo hzero p hp =>
    cases hshape' with
    | imaginary hone' => exact absurd (hgroups ▸ other.iPow_two_mem hone') htwo
    | reduced _ htwo' => exact absurd (hgroups ▸ htwo') htwo
    | negative _ htwo' => exact absurd (hgroups ▸ htwo') htwo
    | positive _ hpos => exact absurd (hrank.symm.trans hzero) hpos
    | @trivial _ _ p' hp' => rw [map_singleton, map_singleton, hp, hp']

end Canonical

theorem isEqv_equalsTo_iff {l l' : List PauliUnitary} : l.isEqv l' equalsTo = true ↔
      l.map toPhased = l'.map toPhased := by
  induction l generalizing l' with
  | nil => cases l' <;> simp [List.isEqv]
  | cons p l ih =>
    cases l' with
    | nil => simp [List.isEqv]
    | cons p' l' =>
      rw [List.isEqv, Bool.and_eq_true, equalsTo_iff, ih, map_cons, map_cons, List.cons.injEq]

theorem eq_iff {group other : PauliGroup} :
    group.eq other = true ↔ group.toSubgroup = other.toSubgroup := by
  rw [eq, isEqv_equalsTo_iff]
  constructor
  · intro h
    rw [← generatedBy_standardGenerators, ← generatedBy_standardGenerators,
      generatedBy_eq_closure, generatedBy_eq_closure, h]
  · exact standardGenerators_eq

theorem toSubgroup_bitOr (group other : PauliGroup) :
    (group.bitOr other).toSubgroup = group.toSubgroup ⊔ other.toSubgroup := by
  have hunion : {p | ∃ g ∈ group.generators ++ other.generators, g.toPhased = p} =
      {p | ∃ g ∈ group.generators, g.toPhased = p} ∪
        {p | ∃ g ∈ other.generators, g.toPhased = p} := by
    ext p
    simp only [mem_append, or_and_right, exists_or, Set.mem_ofPred_eq, Set.mem_union]
  exact (congrArg Subgroup.closure hunion).trans (closure_union _ _)

theorem ncard_bitVectors_toSubgroup (group : PauliGroup) :
    (bitVectors group.toSubgroup).ncard = 2 ^ group.binaryRank := by
  rw [toSubgroup_eq]
  exact group.standardFamily.ncard_bitVectors group.binaryRank_le

theorem finite_bitVectors_toSubgroup (group : PauliGroup) :
    (bitVectors group.toSubgroup).Finite := by
  refine Set.finite_of_ncard_ne_zero ?_
  rw [ncard_bitVectors_toSubgroup]
  exact Nat.ne_of_gt (Nat.two_pow_pos _)

section Inclusion

variable {group other : PauliGroup} (hle : group.toSubgroup ≤ other.toSubgroup)

include hle

theorem ranks_le : group.ranks.1 ≤ other.ranks.1 ∧ group.ranks.2 ≤ other.ranks.2 := by
  constructor
  · unfold ranks
    rcases group.phases_cases with ⟨hone, hphases⟩ | ⟨_, htwo, hphases⟩ | ⟨_, hphases⟩ <;>
      rcases other.phases_cases with ⟨_, hphases'⟩ | ⟨hone', _, hphases'⟩ | ⟨htwo', hphases'⟩ <;>
        rw [hphases, hphases']
    · exact absurd (hle hone) hone'
    · exact absurd (hle (group.iPow_two_mem hone)) htwo'
    · simp
    · exact absurd (hle htwo) htwo'
    · simp
    · simp
  · have hncard := Set.ncard_le_ncard (bitVectors_mono hle) other.finite_bitVectors_toSubgroup
    rw [ncard_bitVectors_toSubgroup, ncard_bitVectors_toSubgroup] at hncard
    exact (Nat.pow_le_pow_iff_right (by decide)).mp hncard

theorem toSubgroup_eq_of_ranks_eq (hranks : group.ranks = other.ranks) :
    group.toSubgroup = other.toSubgroup := by
  obtain ⟨hlength, hrank⟩ := Prod.mk.inj hranks
  have hvectors : bitVectors group.toSubgroup = bitVectors other.toSubgroup := by
    refine Set.eq_of_subset_of_ncard_le (bitVectors_mono hle) ?_
      other.finite_bitVectors_toSubgroup
    rw [ncard_bitVectors_toSubgroup, ncard_bitVectors_toSubgroup, hrank]
  refine eq_of_bits_of_scalars hle (fun e he => ?_) fun k hk => iPow_mem_of_le ?_ ?_ hk
  · have hmem : (e.xBits, e.zBits) ∈ bitVectors group.toSubgroup := by
      rw [hvectors]
      exact ⟨e, he, rfl, rfl⟩
    exact hmem
  · intro hone
    rcases group.phases_cases with ⟨hone', _⟩ | ⟨_, _, hphases⟩ | ⟨_, hphases⟩
    · exact hone'
    all_goals
      rcases other.phases_cases with ⟨_, hphases'⟩ | ⟨hone', _⟩ | ⟨htwo', _⟩
      · rw [hphases, hphases'] at hlength
        cases hlength
      · exact absurd hone hone'
      · exact absurd (other.iPow_two_mem hone) htwo'
  · intro htwo
    rcases group.phases_cases with ⟨hone, _⟩ | ⟨_, htwo', _⟩ | ⟨_, hphases⟩
    · exact group.iPow_two_mem hone
    · exact htwo'
    · rcases other.phases_cases with ⟨_, hphases'⟩ | ⟨_, _, hphases'⟩ | ⟨htwo', _⟩
      · rw [hphases, hphases'] at hlength
        cases hlength
      · rw [hphases, hphases'] at hlength
        cases hlength
      · exact absurd htwo htwo'

end Inclusion

theorem ranks_eq {group other : PauliGroup} (hgroups : group.toSubgroup = other.toSubgroup) :
    group.ranks = other.ranks := by
  obtain ⟨hlength, hrank⟩ := ranks_le (le_of_eq hgroups)
  obtain ⟨hlength', hrank'⟩ := ranks_le (le_of_eq hgroups.symm)
  exact Prod.ext (le_antisymm hlength hlength') (le_antisymm hrank hrank')

theorem ranks_eq_bitOr_iff (group other : PauliGroup) :
    (group.ranks = (group.bitOr other).ranks ↔ other.toSubgroup ≤ group.toSubgroup) ∧
      (other.ranks = (group.bitOr other).ranks ↔ group.toSubgroup ≤ other.toSubgroup) := by
  have hunion := toSubgroup_bitOr group other
  constructor
  · constructor
    · intro hranks
      rw [toSubgroup_eq_of_ranks_eq (hunion ▸ le_sup_left) hranks, hunion]
      exact le_sup_right
    · intro hle
      refine ranks_eq ?_
      rw [hunion, sup_eq_left.mpr hle]
  · constructor
    · intro hranks
      rw [toSubgroup_eq_of_ranks_eq (hunion ▸ le_sup_right) hranks, hunion]
      exact le_sup_left
    · intro hle
      refine ranks_eq ?_
      rw [hunion, sup_eq_right.mpr hle]

theorem partialCmp_eq (group other : PauliGroup) :
    (group.partialCmp other = some .eq ∧ group.toSubgroup = other.toSubgroup) ∨
      (group.partialCmp other = some .lt ∧ group.toSubgroup < other.toSubgroup) ∨
        (group.partialCmp other = some .gt ∧ other.toSubgroup < group.toSubgroup) ∨
          (group.partialCmp other = none ∧ ¬ group.toSubgroup ≤ other.toSubgroup ∧
            ¬ other.toSubgroup ≤ group.toSubgroup) := by
  obtain ⟨hleft, hright⟩ := ranks_eq_bitOr_iff group other
  unfold partialCmp
  dsimp only
  split_ifs with heq hlt hgt
  · refine Or.inl ⟨rfl, le_antisymm ?_ (hleft.mp heq.2)⟩
    exact hright.mp (heq.1.symm.trans heq.2)
  · refine Or.inr (Or.inl ⟨rfl, lt_of_le_of_ne (hright.mp hlt.2.2) fun hgroups => heq ?_⟩)
    exact ⟨ranks_eq hgroups, hleft.mpr (le_of_eq hgroups.symm)⟩
  · refine Or.inr (Or.inr (Or.inl ⟨rfl, lt_of_le_of_ne (hleft.mp hgt) fun hgroups => heq ?_⟩))
    exact ⟨ranks_eq hgroups.symm, hgt⟩
  · refine Or.inr (Or.inr (Or.inr ⟨rfl, fun hle => ?_, fun hle => hgt (hleft.mpr hle)⟩))
    obtain ⟨hlength, hrank⟩ := ranks_le hle
    exact hlt ⟨hlength, hrank, hright.mpr hle⟩

/-- Comparison is extensional: standard generators and equality decide whether two lists of
generators generate the same Paulis, and the partial order decides inclusion. -/
theorem comparison_extensional (group other : PauliGroup) :
    (group.standardGenerators.map PauliUnitary.toPhased =
        other.standardGenerators.map PauliUnitary.toPhased ↔
      generatedBy group.generators = generatedBy other.generators) ∧
    (group.eq other = true ↔ generatedBy group.generators = generatedBy other.generators) ∧
    (group.partialCmp other = some .eq ↔
      generatedBy group.generators = generatedBy other.generators) ∧
    (group.partialCmp other = some .lt ↔
      generatedBy group.generators < generatedBy other.generators) ∧
    (group.partialCmp other = some .gt ↔
      generatedBy other.generators < generatedBy group.generators) ∧
    (group.partialCmp other = none ↔ ¬ generatedBy group.generators ≤ generatedBy other.generators ∧
        ¬ generatedBy other.generators ≤ generatedBy group.generators) := by
  change (_ ↔ group.toSubgroup = other.toSubgroup) ∧ (_ ↔ group.toSubgroup = other.toSubgroup) ∧
    (_ ↔ group.toSubgroup = other.toSubgroup) ∧ (_ ↔ group.toSubgroup < other.toSubgroup) ∧
      (_ ↔ other.toSubgroup < group.toSubgroup) ∧
        (_ ↔ ¬ group.toSubgroup ≤ other.toSubgroup ∧ ¬ other.toSubgroup ≤ group.toSubgroup)
  refine ⟨by rw [← eq_iff, eq, isEqv_equalsTo_iff], eq_iff, ?_⟩
  rcases partialCmp_eq group other with ⟨hcmp, hgroups⟩ | ⟨hcmp, hlt⟩ | ⟨hcmp, hlt⟩ |
    ⟨hcmp, hnot, hnot'⟩
  · rw [hcmp, hgroups]
    simp
  · rw [hcmp]
    simp [hlt, hlt.ne, hlt.le, hlt.not_gt]
  · rw [hcmp]
    simp [hlt, hlt.ne', hlt.le, hlt.not_gt]
  · rw [hcmp]
    have hne : group.toSubgroup ≠ other.toSubgroup := fun h => hnot (le_of_eq h)
    simp [hnot, hnot', hne, lt_iff_le_not_ge]

end PauliGroup

end QdkEc
