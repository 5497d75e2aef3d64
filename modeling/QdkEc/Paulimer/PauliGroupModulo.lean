import QdkEc.Paulimer.PauliGroupElements

/-!
# Remainders of Pauli groups

This module models the remainder of a Pauli group by another one: the standard
generators are multiplied by those of the divisor until none of them has a bit at
a pivot of the divisor, and their phases are reduced by the phases of the divisor.
-/

namespace QdkEc

open PhasedPauli List PauliUnitary

namespace PauliGroup

open AlignedBitMatrix

/-- The Pauli has an `X` bit on a qubit. -/
def supportsX (pauli : PauliUnitary) (on : ℕ) : Bool :=
  pauli.xBits.index on

/-- The Pauli has a `Z` bit on a qubit. -/
def supportsZ (pauli : PauliUnitary) (on : ℕ) : Bool :=
  pauli.zBits.index on

/-- Multiply a generator that has a bit at a pivot by the generator of the pivot. -/
def clearPivot (support : List ℕ) (generator : PauliUnitary) (otherGenerator : PauliUnitary × ℕ) :
    PauliUnitary :=
  let pivot := otherGenerator.2
  let pivotQubit := support.getD (pivot % support.length) 0
  let isXPivot := decide (pivot < support.length)
  let supportsOther := if isXPivot then supportsX else supportsZ
  if supportsOther generator pivotQubit then generator.mulAssignRight otherGenerator.1
  else generator

/-- Representatives of the cosets of another group. -/
def modulo (group other : PauliGroup) : PauliGroup where
  generators :=
    let support := other.support
    let generators := (other.standardGenerators.zip other.echelonForm.pivots).foldl
      (fun generators otherGenerator =>
        generators.map fun generator => clearPivot support generator otherGenerator)
      group.standardGenerators
    let modulus := ((other.phases.map fun exponent => 4 - exponent).min?).getD 4
    generators.map fun generator =>
      { generator with xzPhaseExp := PauliUnitary.phaseValue generator.xzPhaseExp % modulus }

def pivotBit (support : List ℕ) (pivot : ℕ) (e : PhasedPauli) : Bool :=
  if pivot < support.length then e.xBits.index (support.getD (pivot % support.length) 0)
  else e.zBits.index (support.getD (pivot % support.length) 0)

variable (support : List ℕ)

theorem clearPivot_eq (generator : PauliUnitary)
    (otherGenerator : PauliUnitary × ℕ) : clearPivot support generator otherGenerator =
      if pivotBit support otherGenerator.2 generator.toPhased = true then
        generator.mulAssignRight otherGenerator.1 else generator := by
  unfold clearPivot pivotBit
  by_cases hx : otherGenerator.2 < support.length
  · simp only [hx, decide_true, if_true, supportsX, toPhased_xBits]
  · simp only [hx, decide_false, Bool.false_eq_true, if_false, supportsZ, toPhased_zBits]

@[simp]
theorem pivotBit_mul (pivot : ℕ) (e f : PhasedPauli) :
    pivotBit support pivot (e * f) = (pivotBit support pivot e ^^ pivotBit support pivot f) := by
  unfold pivotBit
  split_ifs
  · rw [mul_xBits, Bits.index_add]
  · rw [mul_zBits, Bits.index_add]

theorem pivotBit_congr {support : List ℕ} {pivot : ℕ} {e f : PhasedPauli} (hx : e.xBits = f.xBits)
    (hz : e.zBits = f.zBits) : pivotBit support pivot e = pivotBit support pivot f := by
  unfold pivotBit
  rw [hx, hz]

variable {e : PhasedPauli}

theorem pivotBit_decode {support : List ℕ} (hnodup : support.Nodup) {v : Bits}
    (hv : v.Below (2 * support.length)) (hx : decodeX support v = e.xBits)
    (hz : decodeZ support v = e.zBits) {pivot : ℕ} (hpivot : pivot < 2 * support.length) :
    pivotBit support pivot e = v.index pivot := by
  have hmod : pivot % support.length < support.length := Nat.mod_lt _ (by omega)
  obtain ⟨hreadX, hreadZ⟩ := index_decode hnodup hv hmod
  unfold pivotBit
  rw [getD_eq_getElem _ _ hmod, ← hx, ← hz, hreadX, hreadZ]
  split_ifs with hlt
  · rw [Nat.mod_eq_of_lt hlt]
  · rw [Nat.mod_eq_sub_mod (by omega), Nat.mod_eq_of_lt (by omega), Nat.add_sub_cancel' (by omega)]

section Divisor

variable (group other : PauliGroup)

theorem pivot_lt {j : ℕ} (hj : j < other.echelonForm.pivots.length) :
    other.echelonForm.pivots[j] < 2 * other.support.length :=
  (other.below_row_echelonForm j).lt_of_index (by
    rw [other.reduced_echelonForm.pivot j j hj, decide_eq_true rfl])

theorem pivotBit_rowOperator (exponents : ℕ → UInt8) {i j : ℕ}
    (hj : j < other.echelonForm.pivots.length) :
    pivotBit other.support other.echelonForm.pivots[j] (other.rowOperator exponents i) =
      decide (i = j) := by
  obtain ⟨hx, hz⟩ := other.bits_rowOperator exponents i
  obtain ⟨hdx, hdz⟩ := other.decode_row i
  rw [pivotBit_decode other.nodup_support (other.below_row_echelonForm i) (hdx.trans hx.symm)
    (hdz.trans hz.symm) (other.pivot_lt hj)]
  exact other.reduced_echelonForm.pivot i j hj

theorem zip_standardGenerators : ∃ exponents,
      (∀ j < other.binaryRank, other.rowOperator exponents j ∈ other.toSubgroup) ∧
        other.standardGenerators.zip other.echelonForm.pivots =
          (List.range other.binaryRank).map fun j =>
            (asSparsePauli (other.echelonForm.matrix.row j) (exponents j) other.support,
              other.echelonForm.pivots.getD j 0) := by
  obtain ⟨exponents, tail, hgenerators, _⟩ := other.exists_rowPaulis_append
  refine ⟨exponents, fun j hj => ?_, ?_⟩
  · rw [← generatedBy_standardGenerators, hgenerators]
    exact mem_generatedBy (mem_append_left _
      (mem_map.mpr ⟨j, mem_range.mpr hj, rfl⟩))
  · have hpivots : other.echelonForm.pivots =
        (List.range other.binaryRank).map fun j => other.echelonForm.pivots.getD j 0 := by
      refine ext_getElem (by simp [binaryRank]) fun j hj _ => ?_
      rw [getElem_map, getElem_range, getD_eq_getElem _ _ hj]
    rw [hgenerators]
    nth_rewrite 1 [hpivots]
    rw [← append_nil ((List.range other.binaryRank).map _),
      zip_append (by simp [rowPaulis]), zip_nil_right, append_nil, rowPaulis,
      zip_map']

theorem foldl_map_clearPivot (pairs : List (PauliUnitary × ℕ))
    (generators : List PauliUnitary) : pairs.foldl (fun generators otherGenerator =>
        generators.map fun generator => clearPivot support generator otherGenerator) generators =
      generators.map fun generator => pairs.foldl (clearPivot support) generator := by
  induction pairs generalizing generators with
  | nil => simp
  | cons pair pairs ih =>
    rw [foldl_cons, ih, map_map]
    rfl

/-- A generator after the pivots: multiplied by an element of the divisor, with no bit at any of
them. -/
structure Cleared (other : PauliGroup) (generator cleared : PhasedPauli) (n : ℕ) : Prop where
  coset : ∃ b ∈ other.toSubgroup, cleared = generator * b
  clear : ∀ j (hj : j < other.echelonForm.pivots.length), j < n →
    pivotBit other.support other.echelonForm.pivots[j] cleared = false

theorem cleared_foldl {exponents : ℕ → UInt8}
    (hrows : ∀ j < other.binaryRank, other.rowOperator exponents j ∈ other.toSubgroup)
    (generator : PauliUnitary) {n : ℕ} (hn : n ≤ other.binaryRank) :
    Cleared other generator.toPhased (((List.range n).map fun j =>
        (asSparsePauli (other.echelonForm.matrix.row j) (exponents j) other.support,
          other.echelonForm.pivots.getD j 0)).foldl (clearPivot other.support) generator).toPhased
      n := by
  induction n with
  | zero =>
    refine ⟨⟨1, Subgroup.one_mem _, (mul_one _).symm⟩, fun j _ hj => ?_⟩
    omega
  | succ n ih =>
    obtain ⟨⟨b, hb, hcoset⟩, hclear⟩ := ih (by omega)
    have hpivot : n < other.echelonForm.pivots.length := hn
    rw [range_succ, map_append, map_singleton, foldl_append, foldl_cons,
      foldl_nil, clearPivot_eq, getD_eq_getElem _ _ hpivot]
    split_ifs with hbit
    · rw [toPhased_mulAssignRight, hcoset]
      refine ⟨⟨b * other.rowOperator exponents n, other.toSubgroup.mul_mem hb (hrows n hn),
        mul_assoc _ _ _⟩, fun j hj hjn => ?_⟩
      rw [← hcoset, pivotBit_mul]
      change (_ ^^ pivotBit _ _ (other.rowOperator exponents n)) = _
      rw [pivotBit_rowOperator]
      rcases Nat.lt_succ_iff_lt_or_eq.mp hjn with hlt | rfl
      · rw [hclear j hj hlt, decide_eq_false (by omega)]
        rfl
      · rw [hbit, decide_eq_true rfl]
        rfl
    · refine ⟨⟨b, hb, hcoset⟩, fun j hj hjn => ?_⟩
      rcases Nat.lt_succ_iff_lt_or_eq.mp hjn with hlt | rfl
      · exact hclear j hj hlt
      · exact Bool.eq_false_iff.mpr hbit

theorem reducedExponent_mem (exponent : UInt8) : iPow (phaseResidue (phaseValue exponent %
        ((other.phases.map fun exponent => 4 - exponent).min?).getD 4) -
      phaseResidue exponent) ∈ other.toSubgroup := by
  have hlt : phaseValue exponent < 4 := by exact Nat.mod_lt _ (by decide)
  rw [← phaseResidue_phaseValue exponent]
  generalize phaseValue exponent = e at hlt
  rcases other.phases_cases with ⟨hone, hphases⟩ | ⟨_, htwo, hphases⟩ | ⟨_, hphases⟩
  · refine iPow_mem_of_le (G := ⊤) (fun _ => hone) (fun _ => other.iPow_two_mem hone) ?_
    exact Subgroup.mem_top _
  · have hcases : phaseResidue (e % 2) - phaseResidue e = 0 ∨
        phaseResidue (e % 2) - phaseResidue e = 2 := by
      rcases eq_of_lt_four hlt with rfl | rfl | rfl | rfl
      · exact Or.inl rfl
      · exact Or.inl rfl
      · exact Or.inr rfl
      · exact Or.inr rfl
    have hmodulus :
        ((([0, 2] : List UInt8).map fun exponent => 4 - exponent).min?).getD 4 = 2 :=
      rfl
    rw [hphases, hmodulus]
    rcases hcases with h | h <;> rw [h]
    · exact other.toSubgroup.one_mem
    · exact htwo
  · have hcases : phaseResidue (e % 4) - phaseResidue e = 0 := by
      rcases eq_of_lt_four hlt with rfl | rfl | rfl | rfl <;> rfl
    have hmodulus : ((([0] : List UInt8).map fun exponent => 4 - exponent).min?).getD 4 = 4 :=
      rfl
    rw [hphases, hmodulus, hcases]
    exact other.toSubgroup.one_mem

theorem toPhased_withPhase (p : PauliUnitary) (exponent : UInt8) :
    ({ p with xzPhaseExp := exponent } : PauliUnitary).toPhased =
      iPow (phaseResidue exponent - phaseResidue p.xzPhaseExp) *
        p.toPhased := by
  ext1
  · simp
  · simp
  · simp

/-- What the remainder makes of a generator. -/
def reducedBy (generator : PauliUnitary) : PauliUnitary :=
  let cleared := (other.standardGenerators.zip other.echelonForm.pivots).foldl
    (clearPivot other.support) generator
  let modulus := ((other.phases.map fun exponent => 4 - exponent).min?).getD 4
  { cleared with xzPhaseExp := PauliUnitary.phaseValue cleared.xzPhaseExp % modulus }

theorem generators_modulo :
    (group.modulo other).generators = group.standardGenerators.map other.reducedBy := by
  have hcleared := foldl_map_clearPivot other.support
    (other.standardGenerators.zip other.echelonForm.pivots) group.standardGenerators
  simp only [modulo, hcleared, map_map]
  rfl

theorem cleared_reducedBy (generator : PauliUnitary) :
    Cleared other generator.toPhased (other.reducedBy generator).toPhased other.binaryRank := by
  obtain ⟨exponents, hrows, hzip⟩ := other.zip_standardGenerators
  obtain ⟨⟨b, hb, hcoset⟩, hclear⟩ := cleared_foldl other hrows generator (le_refl _)
  rw [← hzip] at hcoset hclear
  dsimp only [reducedBy]
  generalize List.foldl (clearPivot other.support) generator _ = cleared at hcoset hclear ⊢
  have hphase := other.reducedExponent_mem cleared.xzPhaseExp
  generalize phaseValue cleared.xzPhaseExp % _ = exponent at hphase ⊢
  refine ⟨⟨_, other.toSubgroup.mul_mem hb hphase, ?_⟩, fun j hj hjn => ?_⟩
  · rw [← mul_assoc, ← hcoset, ← iPow_mul_comm]
    exact toPhased_withPhase cleared exponent
  · rw [← hclear j hj hjn]
    exact pivotBit_congr rfl rfl

theorem toSubgroup_modulo_bitOr :
    ((group.modulo other).bitOr other).toSubgroup = (group.bitOr other).toSubgroup := by
  rw [toSubgroup_bitOr, toSubgroup_bitOr]
  refine le_antisymm (sup_le ?_ le_sup_right) (sup_le ?_ le_sup_right)
  · refine (Subgroup.closure_le _).mpr ?_
    rintro _ ⟨p, hp, rfl⟩
    rw [generators_modulo] at hp
    obtain ⟨generator, hgenerator, rfl⟩ := mem_map.mp hp
    obtain ⟨b, hb, hcoset⟩ := (other.cleared_reducedBy generator).coset
    have hmem : generator.toPhased ∈ group.toSubgroup := by
      rw [← generatedBy_standardGenerators]
      exact mem_generatedBy hgenerator
    rw [hcoset]
    exact Subgroup.mul_mem_sup hmem hb
  · rw [← generatedBy_standardGenerators]
    refine (Subgroup.closure_le _).mpr ?_
    rintro _ ⟨generator, hgenerator, rfl⟩
    obtain ⟨b, hb, hcoset⟩ := (other.cleared_reducedBy generator).coset
    have hmem : (other.reducedBy generator).toPhased ∈ (group.modulo other).toSubgroup := by
      refine mem_generatedBy ?_
      rw [generators_modulo]
      exact mem_map_of_mem hgenerator
    rw [eq_mul_inv_of_mul_eq hcoset.symm]
    exact Subgroup.mul_mem_sup hmem (other.toSubgroup.inv_mem hb)

theorem pivotBit_modulo (he : e ∈ (group.modulo other).toSubgroup) {j : ℕ}
    (hj : j < other.echelonForm.pivots.length) :
    pivotBit other.support other.echelonForm.pivots[j] e = false := by
  induction he using Subgroup.closure_induction with
  | mem e he =>
    obtain ⟨p, hp, rfl⟩ := he
    rw [generators_modulo] at hp
    obtain ⟨generator, _, rfl⟩ := mem_map.mp hp
    exact (other.cleared_reducedBy generator).clear j hj hj
  | one =>
    unfold pivotBit
    split_ifs <;> exact Bits.index_zero _
  | mul e f _ _ ihe ihf =>
    rw [pivotBit_mul, ihe, ihf]
    rfl
  | inv e _ ih =>
    rw [← ih]
    exact pivotBit_congr rfl rfl

theorem eq_zero_of_pivotBit (he : e ∈ other.toSubgroup)
    (hpivots : ∀ j (hj : j < other.echelonForm.pivots.length),
      pivotBit other.support other.echelonForm.pivots[j] e = false) :
    e.xBits = 0 ∧ e.zBits = 0 := by
  have hx : ∀ q, e.xBits.index q = true → q ∈ other.support :=
    fun q hq => other.mem_support_iff.mpr ⟨e, he, Or.inl hq⟩
  have hz : ∀ q, e.zBits.index q = true → q ∈ other.support :=
    fun q hq => other.mem_support_iff.mpr ⟨e, he, Or.inr hq⟩
  obtain ⟨hdx, hdz⟩ := decode_encode other.nodup_support hx hz
  have hbelow := below_encode hx hz
  have hzero := other.reduced_echelonForm.eq_zero_of_pivots other.binaryRank_le
    (other.mem_rowSpace_echelonForm_iff.mpr ⟨hbelow, e, he, hdx, hdz⟩) fun j hj => by
      rw [← pivotBit_decode other.nodup_support hbelow hdx hdz (other.pivot_lt hj)]
      exact hpivots j hj
  rw [hzero, decodeX_zero] at hdx
  rw [hzero, decodeZ_zero] at hdz
  exact ⟨hdx.symm, hdz.symm⟩

theorem binaryRank_modulo :
    (group.modulo other).binaryRank + other.binaryRank = (group.bitOr other).binaryRank := by
  have hcard := ncard_bitVectors_sup (G := (group.modulo other).toSubgroup)
    (H := other.toSubgroup) fun g hg h hh hx hz => by
      rw [hx, hz]
      exact other.eq_zero_of_pivotBit hh fun j hj => by
        rw [← pivotBit_congr hx hz]
        exact group.pivotBit_modulo other hg hj
  rw [← toSubgroup_bitOr, toSubgroup_modulo_bitOr, ncard_bitVectors_toSubgroup,
    ncard_bitVectors_toSubgroup, ncard_bitVectors_toSubgroup, ← Nat.pow_add] at hcard
  exact (Nat.pow_right_injective (le_refl 2) hcard).symm

/-- The remainder by a group joined with the group is the join, and the ranks add up. -/
theorem modulo_spec :
    ((group.modulo other).bitOr other).toSubgroup = (group.bitOr other).toSubgroup ∧
      (group.modulo other).binaryRank + other.binaryRank = (group.bitOr other).binaryRank :=
  ⟨group.toSubgroup_modulo_bitOr other, group.binaryRank_modulo other⟩

/-- The remainder by a subgroup; `none` is a divisor that is not one. -/
def tryQuotient : Option PauliGroup :=
  if other.partialCmp group = some .lt ∨ other.partialCmp group = some .eq then
    some (group.modulo other)
  else none

/-- A quotient is a complement: it generates the group together with the divisor, the ranks add up,
and only scalars are common to both. -/
theorem tryQuotient_spec :
    (group.tryQuotient other = none ↔ ¬ other.toSubgroup ≤ group.toSubgroup) ∧
      ∀ quotient, group.tryQuotient other = some quotient →
        (quotient.bitOr other).eq group = true ∧
        quotient.binaryRank + other.binaryRank = group.binaryRank ∧
          ∀ p ∈ quotient.toSubgroup, p ∈ other.toSubgroup → p.xBits = 0 ∧ p.zBits = 0 := by
  have hle : (other.partialCmp group = some .lt ∨ other.partialCmp group = some .eq) ↔
      other.toSubgroup ≤ group.toSubgroup := by
    rcases partialCmp_eq other group with ⟨h, hgroups⟩ | ⟨h, hlt⟩ | ⟨h, hlt⟩ | ⟨h, hnot, -⟩
    · simp [h, hgroups]
    · simp [h, hlt.le]
    · simp [h, hlt.not_ge]
    · simp [h, hnot]
  rw [tryQuotient]
  split_ifs with hcmp
  · refine ⟨by simp [hle.mp hcmp], fun quotient hquotient => ?_⟩
    obtain rfl := Option.some_inj.mp hquotient
    have hunion : (group.bitOr other).toSubgroup = group.toSubgroup := by
      rw [toSubgroup_bitOr, sup_eq_left.mpr (hle.mp hcmp)]
    refine ⟨eq_iff.mpr ((group.toSubgroup_modulo_bitOr other).trans hunion), ?_, ?_⟩
    · exact (group.binaryRank_modulo other).trans (Prod.mk.inj (ranks_eq hunion)).2
    · exact fun p hp hdivisor => other.eq_zero_of_pivotBit hdivisor fun j hj =>
        group.pivotBit_modulo other hp hj
  · exact ⟨iff_of_true rfl (mt hle.mpr hcmp), fun _ h => h.elim⟩

end Divisor

end PauliGroup

end QdkEc
