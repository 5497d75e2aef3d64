import QdkEc.Paulimer.PauliGroupStandardForm

/-!
# Factorizations in Pauli groups

This module shows that a Pauli group factors exactly the Paulis it contains.
The transposed solver finds generators with the right bits, and the phases of the
group decide whether the remaining scalar is one of its elements.
-/

namespace QdkEc

open PhasedPauli List Bits

namespace PauliGroup

open AlignedBitMatrix

variable (group : PauliGroup)

/-- The row of a Pauli over the support of the group. -/
def rowOf (element : PauliUnitary) : Bits :=
  encode group.support element.xBits element.zBits

variable {element : PauliUnitary}

theorem isSupported_iff : group.isSupported element = true ↔
      (∀ q, element.xBits.index q = true → q ∈ group.support) ∧
        ∀ q, element.zBits.index q = true → q ∈ group.support := by
  rw [isSupported, all_eq_true]
  simp only [PauliUnitary.mem_support, decide_eq_true_iff]
  constructor
  · intro h
    exact ⟨fun q hq => h q (Or.inl hq), fun q hq => h q (Or.inr hq)⟩
  · rintro ⟨hx, hz⟩ q (hq | hq)
    · exact hx q hq
    · exact hz q hq

variable (t : Bits)

theorem decode_rightMultiply :
    decodeX group.support ((asBitmatrix group.generators group.support).rightMultiply t) =
        (orderedProd group.operators t).xBits ∧
      decodeZ group.support ((asBitmatrix group.generators group.support).rightMultiply t) =
        (orderedProd group.operators t).zBits := by
  have hdecode := decode_row_asBitmatrix group.supported_support group.nodup_support
  rw [rightMultiply, xBits_orderedProd, zBits_orderedProd, decodeX_combine, decodeZ_combine]
  constructor
  · exact congrArg (Bits.combine · t) (funext fun i => (hdecode i).1)
  · exact congrArg (Bits.combine · t) (funext fun i => (hdecode i).2)

theorem below_rightMultiply :
    ((asBitmatrix group.generators group.support).rightMultiply t).Below
      (2 * group.support.length) := by
  refine below_combine _ fun i _ => ?_
  have h := below_row_asBitmatrix group.supported_support i
  rwa [(row_asBitmatrix _ _).1.2] at h

theorem mem_support_of_orderedProd {q : ℕ}
    (hq : (orderedProd group.operators t).xBits.index q = true ∨
      (orderedProd group.operators t).zBits.index q = true) : q ∈ group.support := by
  by_contra hnot
  have hclear : ∀ i, (group.operators i).xBits.index q = false ∧
      (group.operators i).zBits.index q = false := by
    intro i
    rcases Nat.lt_or_ge i group.generators.length with hi | hi
    · have hsupported := group.supported_support _ (getElem_mem hi) q
      rw [operators, getD_eq_getElem _ _ hi]
      constructor
      · by_contra hset
        exact hnot (hsupported (Or.inl (by simpa using hset)))
      · by_contra hset
        exact hnot (hsupported (Or.inr (by simpa using hset)))
    · rw [group.operators_of_le hi]
      exact ⟨index_zero q, index_zero q⟩
  rw [xBits_orderedProd, zBits_orderedProd, index_combine_eq_false _ fun i _ => (hclear i).1,
    index_combine_eq_false _ fun i _ => (hclear i).2] at hq
  rcases hq with hq | hq <;> cases hq

theorem rightMultiply_eq_rowOf_iff (hsupported : group.isSupported element = true) (t : Bits) :
    (asBitmatrix group.generators group.support).rightMultiply t = group.rowOf element ↔
      (orderedProd group.operators t).xBits = element.xBits ∧
        (orderedProd group.operators t).zBits = element.zBits := by
  obtain ⟨hx, hz⟩ := group.isSupported_iff.mp hsupported
  obtain ⟨hrowX, hrowZ⟩ := decode_encode group.nodup_support hx hz
  obtain ⟨hproductX, hproductZ⟩ := group.decode_rightMultiply t
  constructor
  · intro heq
    rw [← hproductX, ← hproductZ, heq]
    exact ⟨hrowX, hrowZ⟩
  · rintro ⟨heqX, heqZ⟩
    refine decode_injective group.nodup_support (group.below_rightMultiply t)
      (below_encode hx hz) ?_ ?_
    · exact hproductX.trans (heqX.trans hrowX.symm)
    · exact hproductZ.trans (heqZ.trans hrowZ.symm)

/-- The scalar that remains after the product of the generators at some indices. -/
def remainingPhase (t : Bits) (element : PauliUnitary) : UInt8 :=
  (PauliUnitary.phaseValue element.xzPhaseExp -
    PauliUnitary.phaseValue (productOfSparse group.generators t).xzPhaseExp) % 4

theorem remainingPhase_lt (element : PauliUnitary) :
    group.remainingPhase t element < 4 := by
  exact Nat.mod_lt _ (by decide)

theorem toPhased_eq_of_bits {t : Bits} (hx : (orderedProd group.operators t).xBits = element.xBits)
    (hz : (orderedProd group.operators t).zBits = element.zBits) : element.toPhased =
      iPow (PauliUnitary.phaseResidue (group.remainingPhase t element)) *
        orderedProd group.operators t := by
  have hphase : PauliUnitary.phaseResidue (group.remainingPhase t element) =
      element.toPhased.phase - (orderedProd group.operators t).phase := by
    rw [remainingPhase, ← PauliUnitary.phaseValue, PauliUnitary.phaseResidue_phaseValue,
      PauliUnitary.phaseResidue_sub, PauliUnitary.phaseResidue_phaseValue,
      PauliUnitary.phaseResidue_phaseValue, ← PauliUnitary.toPhased_phase,
      ← PauliUnitary.toPhased_phase, toPhased_productOfSparse]
    rfl
  rw [hphase]
  exact eq_iPow_mul_of_bits hx hz

theorem factorize_eq (element : PauliUnitary) :
    group.factorize (group.rowOf element) (PauliUnitary.phaseValue element.xzPhaseExp) =
      (group.echelonForm.transposeSolve (group.rowOf element)).bind fun t =>
        if group.phases.contains (group.remainingPhase t element) then
          some (t.support, group.remainingPhase t element) else none :=
  rfl

theorem factorize_sound (hsupported : group.isSupported element = true)
    {indexes : List ℕ} {exponent : UInt8} (hfactorize : group.factorize (group.rowOf element)
      (PauliUnitary.phaseValue element.xzPhaseExp) = some (indexes, exponent)) :
    (∀ i ∈ indexes, i < group.generators.length) ∧
      iPow (PauliUnitary.phaseResidue exponent) ∈ group.toSubgroup ∧ element.toPhased =
          (indexes.map group.operators).prod * iPow (PauliUnitary.phaseResidue exponent) := by
  rw [factorize_eq] at hfactorize
  obtain ⟨t, hsolve, hphase⟩ := Option.bind_eq_some_iff.mp hfactorize
  split_ifs at hphase with hcontains
  obtain ⟨rfl, rfl⟩ := Prod.mk.inj (Option.some_inj.mp hphase)
  obtain ⟨hbelow, hsum⟩ := group.eliminated_echelonForm.transposeSolve_sound hsolve
  obtain ⟨hx, hz⟩ := (group.rightMultiply_eq_rowOf_iff hsupported t).mp hsum
  refine ⟨fun i hi => ?_, ?_, ?_⟩
  · have hlt := hbelow.lt_of_index (mem_support.mp hi)
    rwa [(row_asBitmatrix _ _).1.1] at hlt
  · exact (group.phases_contains_iff (group.remainingPhase_lt t element)).mp hcontains
  · rw [← iPow_mul_comm]
    exact group.toPhased_eq_of_bits hx hz

theorem factorize_complete (hmem : element.toPhased ∈ group.toSubgroup) :
    group.isSupported element = true ∧ ∃ factorization, group.factorize (group.rowOf element)
        (PauliUnitary.phaseValue element.xzPhaseExp) = some factorization := by
  rw [toSubgroup_eq] at hmem
  obtain ⟨t, ht, k, _, helement⟩ := (mem_generated_iff fun i hi => group.operators_of_le hi).mp hmem
  have hx : (orderedProd group.operators t).xBits = element.xBits := by
    have h := congrArg xBits helement
    rw [mul_xBits, iPow_xBits, zero_add] at h
    exact h.symm
  have hz : (orderedProd group.operators t).zBits = element.zBits := by
    have h := congrArg zBits helement
    rw [mul_zBits, iPow_zBits, zero_add] at h
    exact h.symm
  have hsupported : group.isSupported element = true := by
    rw [isSupported_iff, ← hx, ← hz]
    exact ⟨fun q hq => group.mem_support_of_orderedProd t (Or.inl hq),
      fun q hq => group.mem_support_of_orderedProd t (Or.inr hq)⟩
  refine ⟨hsupported, ?_⟩
  have hsum := (group.rightMultiply_eq_rowOf_iff hsupported t).mpr ⟨hx, hz⟩
  have hlow : Bits.low (asBitmatrix group.generators group.support).columnCount
      ((asBitmatrix group.generators group.support).rightMultiply t) = group.rowOf element := by
    rw [(row_asBitmatrix _ _).1.2, low_eq_self (group.below_rightMultiply t), hsum]
  have hsolve := group.eliminated_echelonForm.transposeSolve_complete
    group.pivotRowsClear_echelonForm (by rwa [(row_asBitmatrix _ _).1.1]) hlow
  obtain ⟨_, hsum'⟩ := group.eliminated_echelonForm.transposeSolve_sound hsolve
  obtain ⟨hx', hz'⟩ := (group.rightMultiply_eq_rowOf_iff hsupported _).mp hsum'
  have hscalar := group.toPhased_eq_of_bits hx' hz'
  rw [factorize_eq, hsolve, Option.bind_some, if_pos]
  · exact ⟨_, rfl⟩
  · rw [group.phases_contains_iff (group.remainingPhase_lt _ element), toSubgroup_eq,
      ← (generated group.operators).mul_mem_cancel_right (orderedProd_mem group.operators _),
      ← hscalar]
    exact hmem

theorem distribute_map_filter {α β : Type*} (p : α → Bool) (f : α → Option β) (l : List α) :
    distribute (l.map p) ((l.filter p).map f) = l.map fun a => if p a then f a else none := by
  induction l with
  | nil => rfl
  | cons a l ih =>
    cases hp : p a with
    | false => simp [hp, distribute, ih]
    | true => simp [hp, distribute, ih]

def indexedFactorization (element : PauliUnitary) : Option (List ℕ × UInt8) :=
  if group.isSupported element then
    group.factorize (group.rowOf element) (PauliUnitary.phaseValue element.xzPhaseExp)
  else none

theorem indexedFactorizationsOf_eq (elements : List PauliUnitary) :
    group.indexedFactorizationsOf elements = elements.map group.indexedFactorization := by
  have hrows : ((elements.filter group.isSupported).zipIdx.map fun entry =>
      group.factorize ((asBitmatrix (elements.filter group.isSupported) group.support).row entry.2)
        (PauliUnitary.phaseValue entry.1.xzPhaseExp)) =
      (elements.filter group.isSupported).map fun e =>
        group.factorize (group.rowOf e) (PauliUnitary.phaseValue e.xzPhaseExp) := by
    refine ext_getElem (by simp) fun i hi hi' => ?_
    rw [getElem_map, getElem_map, getElem_zipIdx, Nat.zero_add]
    rw [(row_asBitmatrix _ _).2 i (by simpa using hi')]
    rfl
  unfold indexedFactorizationsOf
  refine (congrArg _ hrows).trans ?_
  rw [distribute_map_filter]
  rfl

theorem indexedFactorizationOf_eq (element : PauliUnitary) :
    group.indexedFactorizationOf element = group.indexedFactorization element := by
  rw [indexedFactorizationOf, indexedFactorizationsOf_eq]
  rfl

theorem factorizationOf_eq (element : PauliUnitary) : group.factorizationOf element =
      (group.indexedFactorizationOf element).map group.factorsOf := by
  rw [factorizationOf, factorizationsOf, indexedFactorizationsOf_eq, indexedFactorizationOf_eq]
  rfl

theorem prod_factorsOf (factorization : List ℕ × UInt8) :
    ((group.factorsOf factorization).map PauliUnitary.toPhased).prod =
      (factorization.1.map group.operators).prod *
        iPow (PauliUnitary.phaseResidue factorization.2) := by
  obtain ⟨indexes, exponent⟩ := factorization
  have hfactors : ((indexes.map fun i => group.generators.getD i .neutralElement).map
      PauliUnitary.toPhased) = indexes.map group.operators :=
    map_map
  unfold factorsOf
  split_ifs with hzero
  · rw [map_append, prod_append, hfactors, map_singleton, prod_singleton]
    rfl
  · rw [not_not] at hzero
    rw [hfactors, hzero, show PauliUnitary.phaseResidue 0 = 0 from rfl, iPow_zero, mul_one]

theorem indexedFactorizationOf_isSome_iff (element : PauliUnitary) :
    (group.indexedFactorizationOf element).isSome = true ↔ element.toPhased ∈ group.toSubgroup := by
  rw [indexedFactorizationOf_eq, indexedFactorization]
  constructor
  · intro hsome
    split_ifs at hsome with hsupported
    · obtain ⟨⟨indexes, exponent⟩, hfactorize⟩ := Option.isSome_iff_exists.mp hsome
      obtain ⟨_, hscalar, helement⟩ := group.factorize_sound hsupported hfactorize
      rw [helement]
      refine group.toSubgroup.mul_mem ?_ hscalar
      refine group.toSubgroup.list_prod_mem fun p hp => ?_
      obtain ⟨i, _, rfl⟩ := mem_map.mp hp
      rw [toSubgroup_eq]
      exact generator_mem group.operators i
    · cases hsome
  · intro hmem
    obtain ⟨hsupported, factorization, hfactorize⟩ := group.factorize_complete hmem
    rw [if_pos hsupported, hfactorize]
    rfl

theorem indexedFactorizationOf_sound {indexes : List ℕ} {exponent : UInt8}
    (hfactorization : group.indexedFactorizationOf element = some (indexes, exponent)) :
    (∀ i ∈ indexes, i < group.generators.length) ∧ element.toPhased =
        (indexes.map group.operators).prod * iPow (PauliUnitary.phaseResidue exponent) := by
  rw [indexedFactorizationOf_eq, indexedFactorization] at hfactorization
  split_ifs at hfactorization with hsupported
  obtain ⟨hindexes, _, helement⟩ := group.factorize_sound hsupported hfactorization
  exact ⟨hindexes, helement⟩

theorem contains_iff (element : PauliUnitary) :
    group.contains element = true ↔ element.toPhased ∈ group.toSubgroup := by
  rw [contains, factorizationOf_eq, Option.isSome_map, indexedFactorizationOf_isSome_iff]

/-- Factorizations exist exactly for the Paulis that the generators generate, and their factors
multiply to the Pauli with its phase. -/
theorem factorizationOf_spec (group : PauliGroup) (element : PauliUnitary) :
    ((group.factorizationOf element).isSome = true ↔
        element.toPhased ∈ generatedBy group.generators) ∧
      ((group.indexedFactorizationOf element).isSome = true ↔
        element.toPhased ∈ generatedBy group.generators) ∧
      (group.contains element = true ↔ element.toPhased ∈ generatedBy group.generators) ∧
      (∀ factors, group.factorizationOf element = some factors →
        (factors.map PauliUnitary.toPhased).prod = element.toPhased) ∧
      ∀ indexes exponent, group.indexedFactorizationOf element = some (indexes, exponent) →
        (∀ i ∈ indexes, i < group.generators.length) ∧
          (indexes.map fun i => (group.generators.getD i .neutralElement).toPhased).prod *
            iPow (PauliUnitary.phaseResidue exponent) = element.toPhased := by
  refine ⟨group.contains_iff element, group.indexedFactorizationOf_isSome_iff element,
    group.contains_iff element, fun factors hfactors => ?_, fun indexes exponent h => ?_⟩
  · rw [factorizationOf_eq] at hfactors
    obtain ⟨⟨indexes, exponent⟩, hindexed, rfl⟩ := Option.map_eq_some_iff.mp hfactors
    rw [prod_factorsOf]
    exact (group.indexedFactorizationOf_sound hindexed).2.symm
  · obtain ⟨hindexes, helement⟩ := group.indexedFactorizationOf_sound h
    exact ⟨hindexes, helement.symm⟩

end PauliGroup

end QdkEc
