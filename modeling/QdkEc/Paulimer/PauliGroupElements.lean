import QdkEc.Lib.Powersets
import QdkEc.Paulimer.PauliGroupOrder

/-!
# Elements of Pauli groups

This module models the enumeration of the elements of a Pauli group and the
logarithm of their number.  Every element is a product of some of the standard
generators that act on a qubit, taken in order, times a phase of the group.
-/

namespace QdkEc

open PhasedPauli List PauliUnitary

namespace PauliGroup

open AlignedBitMatrix

variable (group : PauliGroup)

def elements : List PauliUnitary :=
  let generators := group.standardGenerators
  if generators.isEmpty then [.neutralElement]
  else
    let phases := group.phases
    let neutral := PauliUnitary.neutralElement
    let nontrivialGenerators := generators.takeWhile fun g => decide (0 < g.weight)
    ((powerset nontrivialGenerators).map fun paulis =>
      paulis.foldl PauliUnitary.mulAssignRight neutral).flatMap fun pauli =>
        phases.map fun phase => pauli.addAssignPhaseExp phase

/-- The logarithm of the number of elements, none for an impossible number of phases. -/
def log2Size : Option ℕ :=
  let phaseRank := match group.phases.length with
    | 1 => some 0
    | 2 => some 1
    | 4 => some 2
    | _ => none
  phaseRank.map fun phaseRank => group.binaryRank + phaseRank

/-- The operator of a row with the phase of the standard generator. -/
def rowOperator (exponents : ℕ → UInt8) (j : ℕ) : PhasedPauli :=
  (asSparsePauli (group.echelonForm.matrix.row j) (exponents j) group.support).toPhased

variable (exponents : ℕ → UInt8)

theorem bits_rowOperator (j : ℕ) :
    (group.rowOperator exponents j).xBits = (group.standardProduct j).xBits ∧
      (group.rowOperator exponents j).zBits = (group.standardProduct j).zBits := by
  rw [rowOperator, toPhased_asSparsePauli_row, mul_xBits, mul_zBits, iPow_xBits, iPow_zBits,
    zero_add, zero_add]
  exact ⟨rfl, rfl⟩

theorem takeWhile_rowPaulis {tail : List PauliUnitary}
    (htail : ∀ p ∈ tail, p.weight = 0) :
    (group.rowPaulis exponents ++ tail).takeWhile (fun g => decide (0 < g.weight)) =
      group.rowPaulis exponents := by
  rw [takeWhile_append_of_pos]
  · cases tail with
    | nil => rw [takeWhile_nil, append_nil]
    | cons p tail =>
      rw [takeWhile_cons_of_neg, append_nil]
      rw [htail p (by simp)]
      decide
  · intro p hp
    obtain ⟨j, hj, rfl⟩ := mem_map.mp hp
    exact decide_eq_true (Nat.pos_of_ne_zero
      (group.weight_asSparsePauli_row (mem_range.mp hj) (exponents j)))

theorem nontrivialGenerators_eq :
    ∃ exponents, group.standardGenerators.takeWhile (fun g => decide (0 < g.weight)) =
      group.rowPaulis exponents := by
  obtain ⟨exponents, tail, hgenerators, htail⟩ := group.exists_rowPaulis_append
  rw [hgenerators]
  exact ⟨exponents, group.takeWhile_rowPaulis exponents htail⟩

theorem isEmpty_standardGenerators : group.standardGenerators.isEmpty = false := by
  change List.isEmpty (if (asStandardGenerators group.echelonForm.matrix group.productPhases
    group.support).isEmpty then [neutralElement] else
      asStandardGenerators group.echelonForm.matrix group.productPhases group.support) = false
  split_ifs with hempty
  · rfl
  · rwa [Bool.not_eq_true] at hempty

theorem toPhased_foldl_mulAssignRight (paulis : List PauliUnitary) (start : PauliUnitary) :
    (paulis.foldl mulAssignRight start).toPhased = start.toPhased * (paulis.map toPhased).prod := by
  induction paulis generalizing start with
  | nil => rw [foldl_nil, map_nil, prod_nil, mul_one]
  | cons p paulis ih =>
    rw [foldl_cons, ih, toPhased_mulAssignRight, map_cons, prod_cons, mul_assoc]

theorem elements_eq : ∃ exponents,
      (∀ j < group.binaryRank, group.rowOperator exponents j ∈ group.toSubgroup) ∧
        group.elements.map toPhased = (powerset (List.range group.binaryRank)).flatMap fun rows =>
            group.phases.map fun phase => iPow (phaseResidue phase) *
              (rows.map (group.rowOperator exponents)).prod := by
  obtain ⟨exponents, hrows⟩ := group.nontrivialGenerators_eq
  refine ⟨exponents, fun j hj => ?_, ?_⟩
  · rw [← generatedBy_standardGenerators]
    have hrow : asSparsePauli (group.echelonForm.matrix.row j) (exponents j) group.support ∈
        group.rowPaulis exponents :=
      mem_map.mpr ⟨j, mem_range.mpr hj, rfl⟩
    rw [← hrows] at hrow
    exact mem_generatedBy (takeWhile_subset _ hrow)
  · have hprod : ∀ rows : List ℕ, ((rows.map fun j =>
        asSparsePauli (group.echelonForm.matrix.row j) (exponents j) group.support).foldl
          mulAssignRight .neutralElement).toPhased =
            (rows.map (group.rowOperator exponents)).prod := by
      intro rows
      rw [toPhased_foldl_mulAssignRight, toPhased_neutralElement, one_mul, map_map]
      rfl
    simp only [elements, isEmpty_standardGenerators, Bool.false_eq_true, if_false, hrows,
      rowPaulis, powerset_map, map_map, flatMap_map, map_flatMap,
      Function.comp_def, toPhased_addAssignPhaseExp, hprod]

/-- The product of rows that a bit set selects. -/
def rowProduct (exponents : ℕ → UInt8) (c : Bits) : PhasedPauli :=
  Bits.orderedProd (group.rowOperator exponents) c

theorem bits_rowProduct (c : Bits) : (group.rowProduct exponents c).xBits =
        Bits.combine (fun j => (group.standardProduct j).xBits) c ∧
      (group.rowProduct exponents c).zBits =
        Bits.combine (fun j => (group.standardProduct j).zBits) c := by
  have hbits := group.bits_rowOperator exponents
  rw [rowProduct, xBits_orderedProd, zBits_orderedProd]
  constructor
  · exact congrArg (Bits.combine · c) (funext fun j => (hbits j).1)
  · exact congrArg (Bits.combine · c) (funext fun j => (hbits j).2)

theorem eq_of_bits_rowProduct {exponents : ℕ → UInt8} {c d : Bits} (hc : c.Below group.binaryRank)
    (hd : d.Below group.binaryRank)
    (hx : (group.rowProduct exponents c).xBits = (group.rowProduct exponents d).xBits)
    (hz : (group.rowProduct exponents c).zBits = (group.rowProduct exponents d).zBits) : c = d := by
  obtain ⟨hcx, hcz⟩ := group.bits_rowProduct exponents c
  obtain ⟨hdx, hdz⟩ := group.bits_rowProduct exponents d
  rw [hcx, hdx] at hx
  rw [hcz, hdz] at hz
  exact group.standardFamily.combine_injective group.binaryRank_le hc hd hx hz

theorem exists_rowProduct {e : PhasedPauli} (he : e ∈ group.toSubgroup) :
    ∃ c : Bits, c.Below group.binaryRank ∧ (group.rowProduct exponents c).xBits = e.xBits ∧
        (group.rowProduct exponents c).zBits = e.zBits := by
  rw [toSubgroup_eq] at he
  obtain ⟨c, hc, hx, hz⟩ := group.standardFamily.exists_combine_below he
  obtain ⟨hcx, hcz⟩ := group.bits_rowProduct exponents c
  exact ⟨c, hc, hcx.trans hx.symm, hcz.trans hz.symm⟩

theorem prod_eq_rowProduct {rows : List ℕ}
    (hrows : rows ∈ powerset (List.range group.binaryRank)) :
    (Bits.ofList rows).Below group.binaryRank ∧ (rows.map (group.rowOperator exponents)).prod =
        group.rowProduct exponents (Bits.ofList rows) := by
  obtain ⟨hbelow, hsupport⟩ := support_ofList_of_sublist (mem_powerset.mp hrows)
  refine ⟨hbelow, ?_⟩
  rw [rowProduct, Bits.orderedProd, hsupport]

theorem phases_spec : group.phases.Nodup ∧ ∀ phase ∈ group.phases, phase < 4 := by
  rcases group.phases_cases with ⟨_, h⟩ | ⟨_, _, h⟩ | ⟨_, h⟩ <;> rw [h] <;> simp

theorem eq_of_iPow_eq {phase phase' : UInt8} (hphase : phase < 4) (hphase' : phase' < 4)
    (h : iPow (phaseResidue phase) = iPow (phaseResidue phase')) : phase = phase' := by
  refine (eq_of_phaseResidue_eq hphase hphase' (b := false) ?_).2 rfl
  rw [twist_false, zero_add]
  exact congrArg PhasedPauli.phase h

theorem nodup_elements : (group.elements.map toPhased).Nodup := by
  obtain ⟨exponents, _, helements⟩ := group.elements_eq
  obtain ⟨hnodup, hlt⟩ := group.phases_spec
  rw [helements, nodup_flatMap]
  constructor
  · intro rows _
    refine hnodup.map_on fun phase hphase phase' hphase' h => ?_
    exact eq_of_iPow_eq (hlt _ hphase) (hlt _ hphase') (mul_right_cancel h)
  · refine (nodup_powerset nodup_range).imp_of_mem fun {rows rows'} hrows hrows' hne => ?_
    intro e he he'
    obtain ⟨phase, _, rfl⟩ := mem_map.mp he
    obtain ⟨phase', _, heq⟩ := mem_map.mp he'
    obtain ⟨hbelow, hprod⟩ := group.prod_eq_rowProduct exponents hrows
    obtain ⟨hbelow', hprod'⟩ := group.prod_eq_rowProduct exponents hrows'
    -- Scalars have no bits, so both products of rows have the same ones.
    have hx := congrArg PhasedPauli.xBits heq
    have hz := congrArg PhasedPauli.zBits heq
    rw [hprod, hprod', mul_xBits, mul_xBits, iPow_xBits, iPow_xBits, zero_add, zero_add] at hx
    rw [hprod, hprod', mul_zBits, mul_zBits, iPow_zBits, iPow_zBits, zero_add, zero_add] at hz
    have hsame := group.eq_of_bits_rowProduct hbelow' hbelow hx hz
    refine hne ?_
    rw [← (support_ofList_of_sublist (mem_powerset.mp hrows)).2, ← hsame,
      (support_ofList_of_sublist (mem_powerset.mp hrows')).2]

theorem mem_elements_iff {e : PhasedPauli} :
    e ∈ group.elements.map toPhased ↔ e ∈ group.toSubgroup := by
  obtain ⟨exponents, hrows, helements⟩ := group.elements_eq
  obtain ⟨_, hlt⟩ := group.phases_spec
  rw [helements, mem_flatMap]
  constructor
  · rintro ⟨rows, hmem, he⟩
    obtain ⟨phase, hphase, rfl⟩ := mem_map.mp he
    refine group.toSubgroup.mul_mem ?_ (Subgroup.list_prod_mem _ fun x hx => ?_)
    · exact (group.phases_contains_iff (hlt _ hphase)).mp (contains_iff_mem.mpr hphase)
    · obtain ⟨j, hj, rfl⟩ := mem_map.mp hx
      exact hrows j (mem_range.mp ((mem_powerset.mp hmem).subset hj))
  · intro he
    obtain ⟨c, hc, hx, hz⟩ := group.exists_rowProduct exponents he
    have heq := eq_iPow_mul_of_bits hx hz
    have hproduct : group.rowProduct exponents c ∈ group.toSubgroup :=
      Subgroup.list_prod_mem _ fun x hmem => by
        obtain ⟨j, hj, rfl⟩ := mem_map.mp hmem
        exact hrows j (hc.lt_of_index (Bits.mem_support.mp hj))
    obtain ⟨phase, hphase, hresidue⟩ :=
      exists_phaseResidue (e.phase - (group.rowProduct exponents c).phase)
    rw [← hresidue] at heq
    refine ⟨c.support, mem_powerset.mpr (support_sublist_range hc), mem_map.mpr
      ⟨phase, ?_, heq.symm⟩⟩
    refine contains_iff_mem.mp ((group.phases_contains_iff hphase).mpr ?_)
    rw [heq] at he
    exact (group.toSubgroup.mul_mem_cancel_right hproduct).mp he

theorem length_elements : ∃ k, group.log2Size = some k ∧ group.elements.length = 2 ^ k := by
  obtain ⟨exponents, _, helements⟩ := group.elements_eq
  have hlength : group.elements.length = 2 ^ group.binaryRank * group.phases.length := by
    have h := congrArg List.length helements
    rw [length_map, length_flatMap] at h
    simp only [length_map, map_const', sum_replicate, smul_eq_mul, length_powerset,
      length_range] at h
    exact h
  rw [hlength]
  unfold log2Size
  rcases group.phases_cases with ⟨_, h⟩ | ⟨_, _, h⟩ | ⟨_, h⟩ <;> rw [h]
  · exact ⟨group.binaryRank + 2, rfl, (Nat.pow_add 2 _ 2).symm⟩
  · exact ⟨group.binaryRank + 1, rfl, (Nat.pow_add 2 _ 1).symm⟩
  · exact ⟨group.binaryRank + 0, rfl, (Nat.pow_add 2 _ 0).symm⟩

/-- The elements are those of the generated group, each listed once, and their number is the
power of two that the logarithm gives. -/
theorem elements_spec (generators : List PauliUnitary) : let group : PauliGroup := ⟨generators⟩
    (group.elements.map toPhased).Nodup ∧
      (∀ e, e ∈ group.elements.map toPhased ↔ e ∈ generatedBy generators) ∧
        ∃ k, group.log2Size = some k ∧ group.elements.length = 2 ^ k :=
  ⟨nodup_elements _, fun _ => mem_elements_iff _, length_elements _⟩

end PauliGroup

end QdkEc
