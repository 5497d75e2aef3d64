import QdkEc.Binar.RowSpaceIntersection
import QdkEc.Paulimer.PauliGroupOrder

/-!
# Intersections of Pauli groups

This module models the intersection of two Pauli groups.  It takes a basis of the
bit vectors that both groups have and keeps the vectors of that basis which have
a phase in common.  A product of two vectors without a common phase has one, so
the result is the intersection exactly when at most one vector of the basis is
dropped.
-/

namespace QdkEc

open PhasedPauli Bits List

namespace PauliGroup

open AlignedBitMatrix

/-- The matrix of the bit vectors that both groups have, over the support of their union. -/
def intersectionMatrix (groupA groupB : PauliGroup) : AlignedBitMatrix :=
  let support := (groupA.bitOr groupB).support
  let bits1 := asBitmatrix groupA.standardGenerators support
  let bits2 := asBitmatrix groupB.standardGenerators support
  bits1.rowSpaceIntersectionWith bits2

/-- The group of the bit vectors that both groups have, without phases. -/
def phaseInsensitiveIntersectionOf (groupA groupB : PauliGroup) : PauliGroup where
  generators := asSparsePaulis (intersectionMatrix groupA groupB) (groupA.bitOr groupB).support

/-- The first phase variant of a Pauli that both groups contain. -/
def commonPhaseVariantOf (pauliBase : PauliUnitary) (group1 group2 : PauliGroup) :
    Option PauliUnitary :=
  ([0, 1, 2, 3].map fun phase => { pauliBase with xzPhaseExp := phase }).find? fun candidate =>
    group1.contains candidate && group2.contains candidate

/-- The intersection of two groups. The hash sets of the source list the common scalars in some
order, which the generated group does not depend on. -/
def bitAnd (group other : PauliGroup) : PauliGroup :=
  match group.partialCmp other with
  | some .gt => other
  | some .lt => group
  | some .eq => group
  | none =>
    let insensitiveIntersection := phaseInsensitiveIntersectionOf group other
    { generators :=
        (insensitiveIntersection.generators.filterMap fun pauliBase =>
          commonPhaseVariantOf pauliBase group other) ++
        (group.phases.filter other.phases.contains).map scalarPauli }

section Common

variable (group other : PauliGroup)

/-- The bits that a row over the common support stands for. -/
def decode (row : Bits) : Bits × Bits :=
  (decodeX (group.bitOr other).support row, decodeZ (group.bitOr other).support row)

/-- The rows of the bit vectors that both groups have. -/
def commonBits : Set Bits :=
  {v | v.Below (2 * (group.bitOr other).support.length) ∧
    decode group other v ∈ bitVectors group.toSubgroup ∧
      decode group other v ∈ bitVectors other.toSubgroup}

/-- Both groups contain the Pauli of a row with the same phase. -/
def CommonPhase (row : Bits) : Prop :=
  decode group other row ∈ bitVectors (group.toSubgroup ⊓ other.toSubgroup)

theorem mem_rowSpace_asBitmatrix_iff {support : List ℕ} {operators : List PauliUnitary}
    (hsupported : Supported support operators) (hnodup : support.Nodup) {v : Bits} :
    v ∈ rowSpace (asBitmatrix operators support).rowCount (asBitmatrix operators support).row ↔
      v.Below (2 * support.length) ∧
        (decodeX support v, decodeZ support v) ∈ bitVectors (generatedBy operators) := by
  have hgenerated : generatedBy operators = generated (PauliGroup.mk operators).operators :=
    (PauliGroup.mk operators).toSubgroup_eq
  have hdecode := decode_row_asBitmatrix hsupported hnodup
  have hrow : ∀ t : Bits, (Bits.combine (asBitmatrix operators support).row t).Below
      (2 * support.length) := by
    intro t
    refine below_combine _ fun i _ => ?_
    have h := below_row_asBitmatrix hsupported i
    rwa [(row_asBitmatrix _ _).1.2] at h
  have hbits : ∀ t, decodeX support (Bits.combine (asBitmatrix operators support).row t) =
        (orderedProd (PauliGroup.mk operators).operators t).xBits ∧
      decodeZ support (Bits.combine (asBitmatrix operators support).row t) =
        (orderedProd (PauliGroup.mk operators).operators t).zBits := by
    intro t
    rw [decodeX_combine, decodeZ_combine, xBits_orderedProd, zBits_orderedProd]
    exact ⟨congrArg (Bits.combine · t) (funext fun i => (hdecode i).1),
      congrArg (Bits.combine · t) (funext fun i => (hdecode i).2)⟩
  rw [hgenerated]
  constructor
  · rintro ⟨t, _, rfl⟩
    exact ⟨hrow t, _, orderedProd_mem _ t, (hbits t).1.symm, (hbits t).2.symm⟩
  · rintro ⟨hv, e, he, hx, hz⟩
    obtain ⟨t, ht, k, _, rfl⟩ :=
      (mem_generated_iff fun i hi => (PauliGroup.mk operators).operators_of_le hi).mp he
    rw [mul_xBits, iPow_xBits, zero_add] at hx
    rw [mul_zBits, iPow_zBits, zero_add] at hz
    refine ⟨t, ?_, decode_injective hnodup (hrow t) hv ?_ ?_⟩
    · rwa [(row_asBitmatrix _ _).1.1]
    · exact (hbits t).1.trans hx
    · exact (hbits t).2.trans hz

theorem supported_standardGenerators (group union : PauliGroup)
    (hle : group.toSubgroup ≤ union.toSubgroup) :
    Supported union.support group.standardGenerators := by
  intro p hp q hq
  refine union.mem_support_iff.mpr ⟨p.toPhased, hle ?_, hq⟩
  rw [← generatedBy_standardGenerators]
  exact mem_generatedBy hp

theorem clear_asBitmatrix {support : List ℕ} {operators : List PauliUnitary}
    (hsupported : Supported support operators) : (asBitmatrix operators support).Clear :=
  fun i => below_row_asBitmatrix hsupported i

theorem intersectionMatrix_spec :
    ∃ pivots, Bits.Reduced (intersectionMatrix group other).row pivots ∧
      (intersectionMatrix group other).rowCount = pivots.length ∧
        ∀ v, v ∈ rowSpace pivots.length (intersectionMatrix group other).row ↔
          v ∈ commonBits group other := by
  have hunion := toSubgroup_bitOr group other
  have hsupported := supported_standardGenerators group (group.bitOr other)
    (hunion ▸ le_sup_left)
  have hsupported' := supported_standardGenerators other (group.bitOr other)
    (hunion ▸ le_sup_right)
  have hnodup := (group.bitOr other).nodup_support
  obtain ⟨pivots, hreduced, hcount, hspace⟩ :=
    rowSpaceIntersectionWith_spec (by rw [(row_asBitmatrix _ _).1.2, (row_asBitmatrix _ _).1.2])
      (clear_asBitmatrix hsupported) (clear_asBitmatrix hsupported')
  refine ⟨pivots, hreduced, hcount, fun v => ?_⟩
  rw [intersectionMatrix, hspace, Submodule.mem_inf, mem_rowSpace_asBitmatrix_iff hsupported hnodup,
    mem_rowSpace_asBitmatrix_iff hsupported' hnodup, generatedBy_standardGenerators,
    generatedBy_standardGenerators]
  constructor
  · rintro ⟨⟨hv, hmem⟩, _, hmem'⟩
    exact ⟨hv, hmem, hmem'⟩
  · rintro ⟨hv, hmem, hmem'⟩
    exact ⟨⟨hv, hmem⟩, hv, hmem'⟩

theorem commonPhaseVariantOf_spec (p : PauliUnitary) :
    (∀ candidate, commonPhaseVariantOf p group other = some candidate →
      candidate.toPhased ∈ group.toSubgroup ⊓ other.toSubgroup ∧
        candidate.xBits = p.xBits ∧ candidate.zBits = p.zBits) ∧
      ((p.xBits, p.zBits) ∈ bitVectors (group.toSubgroup ⊓ other.toSubgroup) →
        ∃ candidate, commonPhaseVariantOf p group other = some candidate) := by
  unfold commonPhaseVariantOf
  constructor
  · intro candidate hfind
    have hcontains := find?_some hfind
    rw [Bool.and_eq_true, contains_iff, contains_iff] at hcontains
    obtain ⟨phase, _, rfl⟩ := mem_map.mp (mem_of_find?_eq_some hfind)
    exact ⟨Subgroup.mem_inf.mpr hcontains, rfl, rfl⟩
  · rintro ⟨e, he, hx, hz⟩
    obtain ⟨hleft, hright⟩ := Subgroup.mem_inf.mp he
    have hexponent : ∃ u ∈ ([0, 1, 2, 3] : List UInt8), PauliUnitary.phaseResidue u = e.phase := by
      have hall : ∀ k : ZMod 4, ∃ u ∈ ([0, 1, 2, 3] : List UInt8),
          PauliUnitary.phaseResidue u = k := by
        decide
      exact hall e.phase
    obtain ⟨u, hu, hphase⟩ := hexponent
    have heq : ({ p with xzPhaseExp := u } : PauliUnitary).toPhased = e :=
      PhasedPauli.ext hphase hx.symm hz.symm
    rw [← Option.isSome_iff_exists, find?_isSome]
    refine ⟨_, mem_map.mpr ⟨u, hu, rfl⟩, ?_⟩
    rw [Bool.and_eq_true, contains_iff, contains_iff, heq]
    exact ⟨hleft, hright⟩

/-- The generators that the computed intersection has when neither group contains the other. -/
def commonGenerators : List PauliUnitary :=
  ((phaseInsensitiveIntersectionOf group other).generators.filterMap fun pauliBase =>
    commonPhaseVariantOf pauliBase group other) ++
    (group.phases.filter other.phases.contains).map scalarPauli

theorem mem_generators_phaseInsensitive {p : PauliUnitary} :
    p ∈ (phaseInsensitiveIntersectionOf group other).generators ↔
      ∃ j, j < (intersectionMatrix group other).rowCount ∧
        asSparsePauli ((intersectionMatrix group other).row j) 0 (group.bitOr other).support =
          p := by
  rw [phaseInsensitiveIntersectionOf, asSparsePaulis, mem_map]
  exact exists_congr fun j => and_congr_left fun _ => mem_range

theorem bits_asSparsePauli {row : Bits}
    (hrow : row.Below (2 * (group.bitOr other).support.length)) :
    ((asSparsePauli row 0 (group.bitOr other).support).xBits,
      (asSparsePauli row 0 (group.bitOr other).support).zBits) = decode group other row := by
  obtain ⟨hx, hz⟩ := asSparsePauli_bits (group.bitOr other).nodup_support hrow 0
  rw [hx, hz, decode]

theorem scalar_of_mem_filter {u : UInt8} (hu : u ∈ group.phases.filter other.phases.contains) :
    iPow (PauliUnitary.phaseResidue u) ∈ group.toSubgroup ⊓ other.toSubgroup := by
  obtain ⟨hleft, hright⟩ := mem_filter.mp hu
  have hlt : u < 4 := by
    have hall : ∀ v ∈ ([0, 1, 2, 3] : List UInt8), v < 4 := by
      intro v hv
      simp only [mem_cons, not_mem_nil, or_false] at hv
      rcases hv with rfl | rfl | rfl | rfl <;> decide
    refine hall u ?_
    rcases group.phases_cases with ⟨_, h⟩ | ⟨_, _, h⟩ | ⟨_, h⟩ <;> rw [h] at hleft
    · exact hleft
    · exact (show ([0, 2] : List UInt8) ⊆ [0, 1, 2, 3] by decide) hleft
    · exact (show ([0] : List UInt8) ⊆ [0, 1, 2, 3] by decide) hleft
  refine Subgroup.mem_inf.mpr ⟨?_, ?_⟩
  · exact (group.phases_contains_iff hlt).mp (contains_iff_mem.mpr hleft)
  · exact (other.phases_contains_iff hlt).mp hright

theorem of_mem_commonGenerators (hrows : ∀ j, ((intersectionMatrix group other).row j).Below
      (2 * (group.bitOr other).support.length)) {p : PauliUnitary}
    (hp : p ∈ commonGenerators group other) : p.toPhased ∈ group.toSubgroup ⊓ other.toSubgroup ∧
      ((p.xBits = 0 ∧ p.zBits = 0) ∨ ∃ j, j < (intersectionMatrix group other).rowCount ∧
        CommonPhase group other ((intersectionMatrix group other).row j) ∧
          (p.xBits, p.zBits) = decode group other ((intersectionMatrix group other).row j)) := by
  rcases mem_append.mp hp with hp | hp
  · obtain ⟨base, hbase, hvariant⟩ := mem_filterMap.mp hp
    obtain ⟨j, hj, rfl⟩ := (mem_generators_phaseInsensitive group other).mp hbase
    obtain ⟨hmem, hx, hz⟩ := (commonPhaseVariantOf_spec group other _).1 p hvariant
    have hbits := bits_asSparsePauli group other (hrows j)
    rw [← hx, ← hz] at hbits
    refine ⟨hmem, Or.inr ⟨j, hj, ?_, hbits⟩⟩
    rw [CommonPhase, ← hbits]
    exact ⟨p.toPhased, hmem, rfl, rfl⟩
  · obtain ⟨u, hu, rfl⟩ := mem_map.mp hp
    exact ⟨scalar_of_mem_filter group other hu, Or.inl ⟨rfl, rfl⟩⟩

theorem exists_mem_commonGenerators (hrows : ∀ j, ((intersectionMatrix group other).row j).Below
      (2 * (group.bitOr other).support.length)) {j : ℕ}
    (hj : j < (intersectionMatrix group other).rowCount)
    (hcommon : CommonPhase group other ((intersectionMatrix group other).row j)) :
    ∃ p ∈ commonGenerators group other,
      (p.xBits, p.zBits) = decode group other ((intersectionMatrix group other).row j) := by
  have hbits := bits_asSparsePauli group other (hrows j)
  rw [CommonPhase, ← hbits] at hcommon
  obtain ⟨candidate, hcandidate⟩ := (commonPhaseVariantOf_spec group other _).2 hcommon
  obtain ⟨_, hx, hz⟩ := (commonPhaseVariantOf_spec group other _).1 candidate hcandidate
  refine ⟨candidate, mem_append_left _ (mem_filterMap.mpr ⟨_,
    (mem_generators_phaseInsensitive group other).mpr ⟨j, hj, rfl⟩, hcandidate⟩), ?_⟩
  rw [hx, hz, hbits]

theorem exists_scalar_commonGenerators {k : ZMod 4}
    (hk : iPow k ∈ group.toSubgroup ⊓ other.toSubgroup) :
    ∃ p ∈ commonGenerators group other, p.toPhased = iPow k := by
  obtain ⟨hleft, hright⟩ := Subgroup.mem_inf.mp hk
  obtain ⟨u, hlt, rfl⟩ := exists_phaseResidue k
  refine ⟨scalarPauli u, mem_append_right _ (mem_map.mpr ⟨u, ?_, rfl⟩), rfl⟩
  rw [mem_filter, ← contains_iff_mem]
  exact ⟨(group.phases_contains_iff hlt).mpr hleft, (other.phases_contains_iff hlt).mpr hright⟩

theorem decode_add (a b : Bits) :
    decode group other (a + b) = decode group other a + decode group other b :=
  Prod.ext (decodeX_add a b) (decodeZ_add a b)

theorem decode_zero : decode group other 0 = 0 :=
  Prod.ext decodeX_zero decodeZ_zero

theorem CommonPhase.add {group other : PauliGroup} {a b : Bits} (ha : CommonPhase group other a)
    (hb : CommonPhase group other b) : CommonPhase group other (a + b) := by
  obtain ⟨p, hp, hpx, hpz⟩ := ha
  obtain ⟨q, hq, hqx, hqz⟩ := hb
  refine ⟨p * q, Subgroup.mul_mem _ hp hq, ?_, ?_⟩
  · rw [mul_xBits, hpx, hqx, decode_add]
    rfl
  · rw [mul_zBits, hpz, hqz, decode_add]
    rfl

/-- The scalars by which a member of one group and a member of the other one can differ when the
operator has a phase in common. -/
def PhaseDifference (k : ZMod 4) : Prop :=
  ∃ κ μ, iPow κ ∈ group.toSubgroup ∧ iPow μ ∈ other.toSubgroup ∧ k = κ + μ

theorem commonPhase_iff {row : Bits} {p : PhasedPauli} {k : ZMod 4} (hp : p ∈ group.toSubgroup)
    (hq : iPow k * p ∈ other.toSubgroup) (hbits : (p.xBits, p.zBits) = decode group other row) :
    CommonPhase group other row ↔ PhaseDifference group other k := by
  constructor
  · rintro ⟨e, he, hx, hz⟩
    obtain ⟨hleft, hright⟩ := Subgroup.mem_inf.mp he
    rw [← hbits] at hx hz
    have hdiff := eq_iPow_mul_of_bits hx.symm hz.symm
    have hscalar : iPow (e.phase - p.phase) ∈ group.toSubgroup := by
      rwa [hdiff, Subgroup.mul_mem_cancel_right _ hp] at hleft
    refine ⟨e.phase - p.phase, k - (e.phase - p.phase), hscalar, ?_, by ring⟩
    have hsplit : iPow k * p = iPow (k - (e.phase - p.phase)) * e := by
      rw [hdiff, ← mul_assoc, ← iPow_add]
      congr 2
      rw [mul_phase, iPow_phase, iPow_zBits, dot_zero_left, twist_false]
      ring
    rwa [hsplit, Subgroup.mul_mem_cancel_right _ hright] at hq
  · rintro ⟨κ, μ, hκ, hμ, rfl⟩
    have hinv : iPow (-μ) ∈ other.toSubgroup := by
      have hneg : ∀ μ : ZMod 4, (iPow μ)⁻¹ = iPow (-μ) := by decide
      rw [← hneg]
      exact Subgroup.inv_mem _ hμ
    refine ⟨iPow κ * p, Subgroup.mem_inf.mpr ⟨Subgroup.mul_mem _ hκ hp, ?_⟩, ?_, ?_⟩
    · have hmem := Subgroup.mul_mem _ hinv hq
      rwa [← mul_assoc, ← iPow_add, show -μ + (κ + μ) = κ by ring] at hmem
    · rw [mul_xBits, iPow_xBits, zero_add, ← hbits]
    · rw [mul_zBits, iPow_zBits, zero_add, ← hbits]

theorem phaseDifference_two {p : PhasedPauli} {k : ZMod 4} (hp : p ∈ group.toSubgroup)
    (hq : iPow k * p ∈ other.toSubgroup) (hodd : k = 1 ∨ k = 3) :
    PhaseDifference group other 2 := by
  by_cases horder : OrderTwo p
  · refine ⟨0, 2, Subgroup.one_mem _, iPow_two_mem_of_not_orderTwo hq ?_, by ring⟩
    unfold OrderTwo at *
    rw [mul_assoc, mul_iPow_mul, horder, mul_one, ← iPow_add]
    rcases hodd with rfl | rfl <;> decide
  · exact ⟨2, 0, iPow_two_mem_of_not_orderTwo hp horder, Subgroup.one_mem _, by ring⟩

theorem commonPhase_add_of_not {a b : Bits} (ha : a ∈ commonBits group other)
    (hb : b ∈ commonBits group other) (hna : ¬ CommonPhase group other a)
    (hnb : ¬ CommonPhase group other b) : CommonPhase group other (a + b) := by
  have hmembers : ∀ {v : Bits}, v ∈ commonBits group other → ∃ p k, p ∈ group.toSubgroup ∧
      iPow k * p ∈ other.toSubgroup ∧ (p.xBits, p.zBits) = decode group other v := by
    rintro v ⟨_, ⟨p, hp, hpx, hpz⟩, q, hq, hqx, hqz⟩
    refine ⟨p, q.phase - p.phase, hp, ?_, Prod.ext hpx hpz⟩
    rwa [← eq_iPow_mul_of_bits (hpx.trans hqx.symm) (hpz.trans hqz.symm)]
  obtain ⟨p, k, hp, hkp, hpbits⟩ := hmembers ha
  obtain ⟨q, l, hq, hlq, hqbits⟩ := hmembers hb
  have hproduct : iPow (k + l) * (p * q) ∈ other.toSubgroup := by
    have hmem := Subgroup.mul_mem _ hkp hlq
    rwa [mul_assoc, mul_iPow_mul, ← mul_assoc, ← iPow_add] at hmem
  have hbits : ((p * q).xBits, (p * q).zBits) = decode group other (a + b) := by
    rw [decode_add, ← hpbits, ← hqbits]
    rfl
  rw [commonPhase_iff group other (Subgroup.mul_mem _ hp hq) hproduct hbits]
  rw [commonPhase_iff group other hp hkp hpbits] at hna
  rw [commonPhase_iff group other hq hlq hqbits] at hnb
  have hzero : PhaseDifference group other 0 :=
    ⟨0, 0, Subgroup.one_mem _, Subgroup.one_mem _, by ring⟩
  have htwo : (k = 1 ∨ k = 3) ∨ (l = 1 ∨ l = 3) → PhaseDifference group other 2 := by
    rintro (hodd | hodd)
    · exact phaseDifference_two group other hp hkp hodd
    · exact phaseDifference_two group other hq hlq hodd
  have hcases : ∀ k : ZMod 4, k = 0 ∨ k = 2 ∨ k = 1 ∨ k = 3 := by decide
  rcases hcases k with rfl | rfl | hk
  · exact absurd hzero hna
  · rcases hcases l with rfl | rfl | hl
    · exact absurd hzero hnb
    · exact hzero
    · exact absurd (htwo (Or.inr hl)) hna
  · rcases hcases l with rfl | rfl | hl
    · exact absurd hzero hnb
    · exact absurd (htwo (Or.inl hk)) hnb
    · have hsum : k + l = 0 ∨ k + l = 2 := by
        rcases hk with rfl | rfl <;> rcases hl with rfl | rfl <;> decide
      rcases hsum with hsum | hsum <;> rw [hsum]
      · exact hzero
      · exact htwo (Or.inl hk)

section Generated

variable {group other} {pivots : List ℕ}
  (hreduced : Bits.Reduced (intersectionMatrix group other).row pivots)
  (hcount : (intersectionMatrix group other).rowCount = pivots.length)
  (hspace : ∀ v, v ∈ Bits.rowSpace pivots.length (intersectionMatrix group other).row ↔
    v ∈ commonBits group other)

include hspace

theorem row_mem_commonBits {j : ℕ} (hj : j < pivots.length) :
    (intersectionMatrix group other).row j ∈ commonBits group other :=
  (hspace _).mp (row_mem_rowSpace _ hj)

include hcount

theorem below_row_intersectionMatrix (j : ℕ) :
    ((intersectionMatrix group other).row j).Below (2 * (group.bitOr other).support.length) := by
  rcases Nat.lt_or_ge j pivots.length with hj | hj
  · exact (row_mem_commonBits hspace hj).1
  · rw [row_of_le (by omega)]
    exact below_zero _

theorem generatedBy_commonGenerators_le :
    generatedBy (commonGenerators group other) ≤ group.toSubgroup ⊓ other.toSubgroup := by
  refine (Subgroup.closure_le _).mpr ?_
  rintro _ ⟨p, hp, rfl⟩
  exact (of_mem_commonGenerators group other (below_row_intersectionMatrix hcount hspace) hp).1

theorem exists_combine_of_mem {e : PhasedPauli}
    (he : e ∈ generatedBy (commonGenerators group other)) : ∃ c : Bits, c.Below pivots.length ∧
      (∀ j, c.index j = true → CommonPhase group other ((intersectionMatrix group other).row j)) ∧
        (e.xBits, e.zBits) =
          decode group other (Bits.combine (intersectionMatrix group other).row c) := by
  have hzero : decode group other (Bits.combine (intersectionMatrix group other).row 0) = 0 := by
    rw [combine_zero, decode_zero]
  induction he using Subgroup.closure_induction with
  | mem e he =>
    obtain ⟨p, hp, rfl⟩ := he
    obtain ⟨_, ⟨hx, hz⟩ | ⟨j, hj, hcommon, hbits⟩⟩ := of_mem_commonGenerators group other
      (below_row_intersectionMatrix hcount hspace) hp
    · refine ⟨0, below_zero _, fun j hj => ?_, ?_⟩
      · rw [index_zero] at hj
        cases hj
      · rw [hzero]
        exact Prod.ext hx hz
    · refine ⟨unit j, below_unit.mpr (by omega), fun i hi => ?_, ?_⟩
      · rw [index_unit, decide_eq_true_iff] at hi
        rwa [← hi]
      · rw [combine_unit]
        exact hbits
  | one =>
    refine ⟨0, below_zero _, fun j hj => ?_, ?_⟩
    · rw [index_zero] at hj
      cases hj
    · rw [hzero]
      rfl
  | mul e f _ _ ihe ihf =>
    obtain ⟨c, hc, hcommon, hbits⟩ := ihe
    obtain ⟨d, hd, hcommon', hbits'⟩ := ihf
    refine ⟨c + d, hc.add hd, fun j hj => ?_, ?_⟩
    · cases hcj : c.index j with
      | true => exact hcommon j hcj
      | false =>
        rw [index_add, hcj, Bool.false_xor] at hj
        exact hcommon' j hj
    · rw [combine_add, decode_add, ← hbits, ← hbits']
      rfl
  | inv e _ ih => exact ih

theorem exists_mem_of_combine {c : Bits} (hc : c.Below pivots.length)
    (hcommon : ∀ j, c.index j = true →
      CommonPhase group other ((intersectionMatrix group other).row j)) :
    ∃ e ∈ generatedBy (commonGenerators group other), (e.xBits, e.zBits) =
      decode group other (Bits.combine (intersectionMatrix group other).row c) := by
  induction c using unit_induction with
  | zero =>
    refine ⟨1, Subgroup.one_mem _, ?_⟩
    rw [combine_zero, decode_zero]
    rfl
  | unit_add j c hj ih =>
    have hindex : (unit j + c).index j = true := by
      rw [index_add, index_unit, decide_eq_true rfl, hj]
      rfl
    have hrest : ∀ i, c.index i = true → (unit j + c).index i = true := by
      intro i hi
      have hne : j ≠ i := by
        rintro rfl
        rw [hj] at hi
        cases hi
      rw [index_add, index_unit, decide_eq_false hne, hi]
      rfl
    have hbelow : c.Below pivots.length := by
      rw [below_iff]
      intro i hi
      by_contra hset
      have hlt := hc.lt_of_index (hrest i (by simpa using hset))
      omega
    obtain ⟨e, he, hbits⟩ := ih hbelow fun i hi => hcommon i (hrest i hi)
    obtain ⟨p, hp, hpbits⟩ := exists_mem_commonGenerators group other
      (below_row_intersectionMatrix hcount hspace)
      (hcount ▸ hc.lt_of_index hindex) (hcommon j hindex)
    refine ⟨p.toPhased * e, Subgroup.mul_mem _ (mem_generatedBy hp) he, ?_⟩
    rw [combine_unit_add, decode_add, ← hpbits, ← hbits]
    rfl

omit hcount hspace in
theorem exists_row_of_mem {e : PhasedPauli} (he : e ∈ group.toSubgroup ⊓ other.toSubgroup) :
    ∃ v ∈ commonBits group other, (e.xBits, e.zBits) = decode group other v := by
  obtain ⟨hleft, hright⟩ := Subgroup.mem_inf.mp he
  have hunion : e ∈ (group.bitOr other).toSubgroup := by
    rw [toSubgroup_bitOr]
    exact Subgroup.mem_sup_left hleft
  have hx : ∀ q, e.xBits.index q = true → q ∈ (group.bitOr other).support :=
    fun q hq => (group.bitOr other).mem_support_iff.mpr ⟨e, hunion, Or.inl hq⟩
  have hz : ∀ q, e.zBits.index q = true → q ∈ (group.bitOr other).support :=
    fun q hq => (group.bitOr other).mem_support_iff.mpr ⟨e, hunion, Or.inr hq⟩
  obtain ⟨hdx, hdz⟩ := decode_encode (group.bitOr other).nodup_support hx hz
  have hbits : (e.xBits, e.zBits) =
      decode group other (encode (group.bitOr other).support e.xBits e.zBits) := by
    rw [decode, hdx, hdz]
  refine ⟨_, ⟨below_encode hx hz, ?_, ?_⟩, hbits⟩
  · rw [← hbits]
    exact ⟨e, hleft, rfl, rfl⟩
  · rw [← hbits]
    exact ⟨e, hright, rfl, rfl⟩

include hreduced

theorem generatedBy_commonGenerators_eq_iff :
    generatedBy (commonGenerators group other) = group.toSubgroup ⊓ other.toSubgroup ↔
      ∀ i j, i < j → j < pivots.length →
        CommonPhase group other ((intersectionMatrix group other).row i) ∨
          CommonPhase group other ((intersectionMatrix group other).row j) := by
  have hinjective : ∀ {a b : Bits}, a.Below (2 * (group.bitOr other).support.length) →
      b.Below (2 * (group.bitOr other).support.length) →
        decode group other a = decode group other b → a = b := by
    intro a b ha hb heq
    obtain ⟨hx, hz⟩ := Prod.mk.inj heq
    exact decode_injective (group.bitOr other).nodup_support ha hb hx hz
  constructor
  · intro heq i j hij hj
    by_contra hnone
    push Not at hnone
    obtain ⟨e, he, hx, hz⟩ := commonPhase_add_of_not group other
      (row_mem_commonBits hspace (by omega)) (row_mem_commonBits hspace hj)
      hnone.1 hnone.2
    rw [← heq] at he
    obtain ⟨c, _, hcommon, hbits⟩ := exists_combine_of_mem hcount hspace he
    have hrow := hinjective (below_combine _ fun k _ =>
      below_row_intersectionMatrix hcount hspace k)
      ((below_row_intersectionMatrix hcount hspace i).add
        (below_row_intersectionMatrix hcount hspace j)) (hbits.symm.trans (Prod.ext hx hz))
    have hindex := hreduced.index_combine_pivot c (j := i) (by omega)
    rw [hrow, index_add, hreduced.pivot i i (by omega), hreduced.pivot j i (by omega),
      decide_eq_true rfl, decide_eq_false (by omega)] at hindex
    exact hnone.1 (hcommon i hindex.symm)
  · intro hcondition
    refine eq_of_bits_of_scalars (generatedBy_commonGenerators_le hcount hspace)
      (fun e he => ?_) fun k hk => ?_
    · obtain ⟨v, hv, hbits⟩ := exists_row_of_mem he
      obtain ⟨c, hc, rfl⟩ := (hspace v).mpr hv
      have hcommon : ∀ j, c.index j = true →
          CommonPhase group other ((intersectionMatrix group other).row j) := by
        intro j hj
        by_contra hnot
        have hothers : ∀ i, (unit j + c).index i = true →
            CommonPhase group other ((intersectionMatrix group other).row i) := by
          intro i hi
          rcases Nat.lt_trichotomy i j with hij | rfl | hji
          · exact (hcondition i j hij (hc.lt_of_index hj)).resolve_right hnot
          · rw [index_add, index_unit, decide_eq_true rfl, hj] at hi
            cases hi
          · have hci : c.index i = true := by
              rwa [index_add, index_unit, decide_eq_false (by omega), Bool.false_xor] at hi
            exact (hcondition j i hji (hc.lt_of_index hci)).resolve_left hnot
        obtain ⟨f, hf, hfbits⟩ := exists_mem_of_combine hcount hspace
          ((below_unit.mpr (hc.lt_of_index hj)).add hc) hothers
        have hrest : CommonPhase group other
            (Bits.combine (intersectionMatrix group other).row (unit j + c)) :=
          ⟨f, generatedBy_commonGenerators_le hcount hspace hf, congrArg Prod.fst hfbits,
            congrArg Prod.snd hfbits⟩
        have hall : CommonPhase group other
            (Bits.combine (intersectionMatrix group other).row c) :=
          ⟨e, he, congrArg Prod.fst hbits, congrArg Prod.snd hbits⟩
        have hsum := hrest.add hall
        rw [combine_unit_add, add_assoc, add_self, add_zero] at hsum
        exact hnot hsum
      obtain ⟨f, hf, hfbits⟩ := exists_mem_of_combine hcount hspace hc hcommon
      obtain ⟨hx, hz⟩ := Prod.mk.inj (hfbits.trans hbits.symm)
      exact ⟨f, hf, hx, hz⟩
    · obtain ⟨p, hp, hpk⟩ := exists_scalar_commonGenerators group other hk
      rw [← hpk]
      exact mem_generatedBy hp

end Generated

end Common

/-- One group contains the other one, or of the vectors of the reduced basis of the common bit
vectors at most one has no phase with which both groups contain it. -/
def IntersectionComplete (group other : PauliGroup) : Prop :=
  generatedBy group.generators ≤ generatedBy other.generators ∨
    generatedBy other.generators ≤ generatedBy group.generators ∨
      ∀ g pivots, Bits.Reduced g pivots →
        (∀ v, v ∈ Bits.rowSpace pivots.length g ↔ v ∈ commonBits group other) →
          ∀ i j, i < j → j < pivots.length →
            CommonPhase group other (g i) ∨ CommonPhase group other (g j)

theorem contains_bitAnd_iff_eq {group other result : PauliGroup} :
    (∀ e, result.contains e = true ↔ group.contains e = true ∧ other.contains e = true) ↔
      result.toSubgroup = group.toSubgroup ⊓ other.toSubgroup := by
  simp only [contains_iff]
  constructor
  · intro h
    refine Subgroup.ext fun e => ?_
    obtain ⟨p, rfl⟩ := exists_toPhased e
    exact h p
  · intro h e
    rw [h, Subgroup.mem_inf]

/-- The intersection contains exactly the Paulis of both groups if and only if one group contains
the other or at most one vector of the common basis has no common phase. -/
theorem contains_bitAnd_iff (group other : PauliGroup) :
    (∀ e, (group.bitAnd other).contains e = true ↔
      group.contains e = true ∧ other.contains e = true) ↔ IntersectionComplete group other := by
  rw [contains_bitAnd_iff_eq]
  have hle : ∀ {a b : Subgroup PhasedPauli}, a ≤ b → a = a ⊓ b ∧ a = b ⊓ a :=
    fun h => ⟨(inf_eq_left.mpr h).symm, (inf_eq_right.mpr h).symm⟩
  unfold bitAnd
  rcases partialCmp_eq group other with ⟨hcmp, hgroups⟩ | ⟨hcmp, hlt⟩ | ⟨hcmp, hlt⟩ |
    ⟨hcmp, hnot, hnot'⟩
  · rw [hcmp]
    exact iff_of_true (hle (le_of_eq hgroups)).1 (Or.inl (le_of_eq hgroups))
  · rw [hcmp]
    exact iff_of_true (hle hlt.le).1 (Or.inl hlt.le)
  · rw [hcmp]
    exact iff_of_true (hle hlt.le).2 (Or.inr (Or.inl hlt.le))
  · rw [hcmp]
    obtain ⟨pivots, hreduced, hcount, hspace⟩ := intersectionMatrix_spec group other
    refine (generatedBy_commonGenerators_eq_iff hreduced hcount hspace).trans ?_
    constructor
    · intro h
      refine Or.inr (Or.inr fun g pivots' hg hgspace i j hij hj => ?_)
      obtain ⟨rfl, rfl⟩ := hreduced.unique hg (le_refl _) (le_refl _)
        (Submodule.ext fun v => (hspace v).trans (hgspace v).symm)
      exact h i j hij hj
    · rintro (h | h | h)
      · exact absurd h hnot
      · exact absurd h hnot'
      · exact h _ pivots hreduced hspace

/-- The groups of `X₀, X₁` and of `-X₀, -X₁` share `X₀X₁`, which their intersection lacks. -/
theorem not_contains_bitAnd :
    ¬ ∀ (group other : PauliGroup) (e : PauliUnitary), (group.bitAnd other).contains e = true ↔
      group.contains e = true ∧ other.contains e = true := by
  intro h
  have hproduct := (h ⟨[.x 0, .x 1]⟩
    ⟨[(PauliUnitary.x 0).addAssignPhaseExp 2, (PauliUnitary.x 1).addAssignPhaseExp 2]⟩
    ((PauliUnitary.x 0).mulAssignRight (.x 1))).mpr (by decide +kernel)
  revert hproduct
  decide +kernel

end PauliGroup

end QdkEc
