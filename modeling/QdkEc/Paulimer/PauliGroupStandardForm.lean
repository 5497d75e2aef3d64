import QdkEc.Paulimer.PauliGroupRows

/-!
# Standard forms of Pauli groups

This module relates the standard form of a Pauli group to the group that its
generators generate.  The standard generators are independent operators with the
least phase in the group, followed by a scalar, and the computed phases are the
scalars of the group.
-/

namespace QdkEc

open PhasedPauli List

namespace PauliGroup

open AlignedBitMatrix

/-- The group that a list of Paulis generates. -/
def generatedBy (generators : List PauliUnitary) : Subgroup PhasedPauli :=
  Subgroup.closure {p | ∃ g ∈ generators, g.toPhased = p}

theorem mem_generatedBy {l : List PauliUnitary} {g : PauliUnitary} (hg : g ∈ l) :
    g.toPhased ∈ generatedBy l :=
  Subgroup.subset_closure ⟨g, hg, rfl⟩

variable (group : PauliGroup)

/-- The group that the generators generate. -/
def toSubgroup : Subgroup PhasedPauli :=
  generatedBy group.generators

/-- The operators of the generators, with the identity behind the last one. -/
def operators (i : ℕ) : PhasedPauli :=
  (group.generators.getD i .neutralElement).toPhased

theorem operators_of_le {i : ℕ} (hi : group.generators.length ≤ i) : group.operators i = 1 := by
  rw [operators, getD_eq_default _ _ hi, PauliUnitary.toPhased_neutralElement]

theorem toSubgroup_eq : group.toSubgroup = generated group.operators := by
  refine le_antisymm (Subgroup.closure_le _ |>.mpr ?_) (Subgroup.closure_le _ |>.mpr ?_)
  · rintro _ ⟨g, hg, rfl⟩
    obtain ⟨i, hi, rfl⟩ := mem_iff_getElem.mp hg
    have hmem := generator_mem group.operators i
    rwa [operators, getD_eq_getElem _ _ hi] at hmem
  · rintro _ ⟨i, rfl⟩
    rcases Nat.lt_or_ge i group.generators.length with hi | hi
    · refine Subgroup.subset_closure ⟨_, getElem_mem hi, ?_⟩
      rw [operators, getD_eq_getElem _ _ hi]
    · rw [operators_of_le group hi]
      exact group.toSubgroup.one_mem

theorem nodup_support : group.support.Nodup :=
  nodup_supportOf group.generators

theorem supported_support : Supported group.support group.generators :=
  supported_supportOf group.generators

theorem eliminated_echelonForm :
    EchelonForm.Eliminated (asBitmatrix group.generators group.support) group.echelonForm
      (asBitmatrix group.generators group.support).columnCount :=
  EchelonForm.eliminated_new _

theorem below_row_echelonForm (i : ℕ) :
    (group.echelonForm.matrix.row i).Below (2 * group.support.length) := by
  rw [group.eliminated_echelonForm.transforms.combine]
  refine Bits.below_combine _ fun j _ => ?_
  have h := below_row_asBitmatrix group.supported_support j
  rwa [(row_asBitmatrix _ _).1.2] at h

theorem pivotRowsClear_echelonForm :
    EchelonForm.PivotRowsClear (asBitmatrix group.generators group.support) group.echelonForm := by
  intro i _
  rw [(row_asBitmatrix _ _).1.2]
  exact group.below_row_echelonForm i

theorem reduced_echelonForm :
    Bits.Reduced group.echelonForm.matrix.row group.echelonForm.pivots := by
  have hrows : (fun i => Bits.low (asBitmatrix group.generators group.support).columnCount
      (group.echelonForm.matrix.row i)) = group.echelonForm.matrix.row := by
    funext i
    refine Bits.low_eq_self ?_
    rw [(row_asBitmatrix _ _).1.2]
    exact group.below_row_echelonForm i
  have h := group.eliminated_echelonForm.reduced
  rwa [hrows] at h

theorem binaryRank_le : group.binaryRank ≤ group.generators.length := by
  have h := group.eliminated_echelonForm.length_le
  rwa [(row_asBitmatrix _ _).1.1] at h

theorem eq_of_lt_four {e : UInt8} (he : e < 4) : e = 0 ∨ e = 1 ∨ e = 2 ∨ e = 3 := by
  simp only [← UInt8.toNat_inj]
  change e.toNat < 4 at he
  change e.toNat = 0 ∨ e.toNat = 1 ∨ e.toNat = 2 ∨ e.toNat = 3
  omega

theorem eq_of_phaseResidue_eq {e f : UInt8} (he : e < 4) (hf : f < 4) {b : Bool}
    (h : PauliUnitary.phaseResidue e = twist b + PauliUnitary.phaseResidue f) :
    e % 2 = f % 2 ∧ (b = false → e = f) := by
  revert h
  rcases eq_of_lt_four he with rfl | rfl | rfl | rfl <;>
    rcases eq_of_lt_four hf with rfl | rfl | rfl | rfl <;> revert b <;> decide

theorem exists_phaseResidue (k : ZMod 4) :
    ∃ u : UInt8, u < 4 ∧ PauliUnitary.phaseResidue u = k := by
  have hcases : ∀ k : ZMod 4, k = 0 ∨ k = 1 ∨ k = 2 ∨ k = 3 := by decide
  rcases hcases k with rfl | rfl | rfl | rfl
  · exact ⟨0, by decide⟩
  · exact ⟨1, by decide⟩
  · exact ⟨2, by decide⟩
  · exact ⟨3, by decide⟩

theorem exists_toPhased (e : PhasedPauli) : ∃ p : PauliUnitary, p.toPhased = e := by
  obtain ⟨u, _, hu⟩ := exists_phaseResidue e.phase
  exact ⟨⟨e.xBits, e.zBits, u⟩, PhasedPauli.ext hu rfl rfl⟩

/-- The product of the generators that give a row of the echelon form. -/
def standardProduct (j : ℕ) : PhasedPauli :=
  Bits.orderedProd group.operators (group.echelonForm.transform.row j)

theorem decode_row (j : ℕ) :
    decodeX group.support (group.echelonForm.matrix.row j) = (group.standardProduct j).xBits ∧
      decodeZ group.support (group.echelonForm.matrix.row j) = (group.standardProduct j).zBits := by
  have hdecode := decode_row_asBitmatrix group.supported_support
    group.nodup_support
  rw [group.eliminated_echelonForm.transforms.combine, standardProduct, xBits_orderedProd,
    zBits_orderedProd, decodeX_combine, decodeZ_combine]
  constructor
  · exact congrArg (Bits.combine · _) (funext fun i => (hdecode i).1)
  · exact congrArg (Bits.combine · _) (funext fun i => (hdecode i).2)

theorem standardFamily : StandardFamily group.operators group.generators.length group.binaryRank
      group.echelonForm.transform.row group.echelonForm.transformInvT.row where
  one _ hi := group.operators_of_le hi
  dual := by
    have h := group.eliminated_echelonForm.transforms.dual
    rwa [(row_asBitmatrix _ _).1.1] at h
  independent := by
    intro c _ hx hz j hj
    have hzero : Bits.combine group.echelonForm.matrix.row c = 0 := by
      refine decode_injective group.nodup_support
        (Bits.below_combine _ fun i _ => group.below_row_echelonForm i) (Bits.below_zero _) ?_ ?_
      · rw [decodeX_zero, decodeX_combine, ← hx]
        exact congrArg (Bits.combine · c) (funext fun i => (group.decode_row i).1)
      · rw [decodeZ_zero, decodeZ_combine, ← hz]
        exact congrArg (Bits.combine · c) (funext fun i => (group.decode_row i).2)
    rw [← group.reduced_echelonForm.index_combine_pivot c hj, hzero, Bits.index_zero]
  scalar := by
    intro j hj _
    have hdecode := group.decode_row j
    rw [group.reduced_echelonForm.zero j hj] at hdecode
    exact ⟨hdecode.1.symm.trans decodeX_zero, hdecode.2.symm.trans decodeZ_zero⟩

theorem standardProduct_mem (j : ℕ) : group.standardProduct j ∈ group.toSubgroup := by
  rw [toSubgroup_eq]
  exact orderedProd_mem _ _

/-- The phase exponents of the products along the transform. -/
def productPhases : List UInt8 :=
  (List.range group.echelonForm.transform.rowCount).map fun i =>
    PauliUnitary.phaseValue
      (productOfSparse group.generators (group.echelonForm.transform.row i)).xzPhaseExp

theorem standardProduct_phase (j : ℕ) : (group.standardProduct j).phase = PauliUnitary.phaseResidue
      (productOfSparse group.generators (group.echelonForm.transform.row j)).xzPhaseExp := by
  rw [← PauliUnitary.toPhased_phase, toPhased_productOfSparse]
  rfl

variable {j : ℕ}

theorem getD_productPhases (hj : j < group.generators.length) : group.productPhases.getD j 0 < 4 ∧
      PauliUnitary.phaseResidue (group.productPhases.getD j 0) =
        (group.standardProduct j).phase := by
  have hcount : group.echelonForm.transform.rowCount = group.generators.length := by
    rw [group.eliminated_echelonForm.transforms.transform_rowCount, (row_asBitmatrix _ _).1.1]
  have hvalue : group.productPhases.getD j 0 = PauliUnitary.phaseValue
      (productOfSparse group.generators (group.echelonForm.transform.row j)).xzPhaseExp := by
    rw [productPhases, getD_eq_getElem?_getD, getElem?_map, getElem?_range (by omega)]
    rfl
  rw [hvalue, PauliUnitary.phaseResidue_phaseValue, standardProduct_phase]
  refine ⟨?_, rfl⟩
  rw [UInt8.lt_iff_toNat_lt, PauliUnitary.phaseValue, UInt8.toNat_mod]
  exact Nat.mod_lt _ (by decide)

theorem phaseModulusFrom_append {m : AlignedBitMatrix} {phases : List UInt8} {l rest : List ℕ}
    (hzero : ∀ i ∈ l, m.row i = 0) (hrest : ∀ i ∈ rest.head?, m.row i ≠ 0) {phaseModulus : UInt8}
    (hmodulus : phaseModulus = 2 ∨ phaseModulus = 4) :
    phaseModulusFrom m phases (l ++ rest) phaseModulus = if ∃ i ∈ l, phases.getD i 0 % 2 = 1 then 1
      else if ∃ i ∈ l, phases.getD i 0 = 2 then 2 else phaseModulus := by
  induction l generalizing phaseModulus with
  | nil =>
    simp only [nil_append, not_mem_nil, false_and, exists_false, if_false]
    cases rest with
    | nil => rfl
    | cons i rest =>
      have hne : 0 < (m.row i).support.length := by
        exact length_pos_iff.mpr fun hnil =>
          hrest i rfl (Bits.support_eq_nil_iff.mp hnil)
      rw [phaseModulusFrom, if_pos hne]
  | cons i l ih =>
    have hsupport : ¬ 0 < (m.row i).support.length := by
      rw [hzero i (by simp), Bits.support_zero]
      simp
    have hmin : min phaseModulus 2 = 2 := by
      rcases hmodulus with rfl | rfl <;> decide
    rw [cons_append, phaseModulusFrom, if_neg hsupport]
    simp only [mem_cons, or_and_right, exists_or, exists_eq_left]
    have hl : ∀ j ∈ l, m.row j = 0 := fun j hj => hzero j (by simp [hj])
    by_cases htwo : phases.getD i 0 = 2
    · have hodd : ¬ phases.getD i 0 % 2 = 1 := by
        rw [htwo]
        decide
      rw [if_pos htwo, hmin, ih hl (Or.inl rfl), if_pos (Or.inl htwo), ite_self]
      exact if_congr ⟨Or.inr, fun h => h.resolve_left hodd⟩ rfl rfl
    · rw [if_neg htwo]
      by_cases hodd : phases.getD i 0 % 2 = 1
      · rw [if_pos hodd, if_pos (Or.inl hodd)]
      · rw [if_neg hodd, ih hl hmodulus]
        refine if_congr ?_ rfl (if_congr ?_ rfl rfl)
        · exact ⟨Or.inr, fun h => h.resolve_left hodd⟩
        · exact ⟨Or.inr, fun h => h.resolve_left htwo⟩

theorem row_echelonForm_ne_zero (hj : j < group.binaryRank) :
    group.echelonForm.matrix.row j ≠ 0 := by
  intro hzero
  have hpivot := group.reduced_echelonForm.pivot j j hj
  rw [hzero, Bits.index_zero, decide_eq_true rfl] at hpivot
  cases hpivot

theorem row_echelonForm_eq_zero (hj : group.binaryRank ≤ j) : group.echelonForm.matrix.row j = 0 :=
  group.reduced_echelonForm.zero j hj

theorem rowCount_echelonForm : group.echelonForm.matrix.rowCount = group.generators.length := by
  rw [group.eliminated_echelonForm.transforms.rowCount, (row_asBitmatrix _ _).1.1]

theorem range_generators : List.range group.generators.length = List.range group.binaryRank ++
      (List.range (group.generators.length - group.binaryRank)).map (group.binaryRank + ·) := by
  rw [← range_add, Nat.add_sub_cancel' group.binaryRank_le]

theorem odd_productPhases_iff :
    iPow 1 ∈ group.toSubgroup ↔ ∃ j, group.binaryRank ≤ j ∧ j < group.generators.length ∧
      group.productPhases.getD j 0 % 2 = 1 := by
  rw [toSubgroup_eq, group.standardFamily.iPow_one_mem_iff]
  refine exists_congr fun j => and_congr_right fun _ => and_congr_right fun hj => ?_
  obtain ⟨hlt, hphase⟩ := group.getD_productPhases hj
  change (group.standardProduct j).phase = 1 ∨ (group.standardProduct j).phase = 3 ↔ _
  rw [← hphase]
  generalize group.productPhases.getD j 0 = e at hlt
  rcases eq_of_lt_four hlt with rfl | rfl | rfl | rfl <;> decide

theorem phaseModulusOf_cases : (iPow 1 ∈ group.toSubgroup ∧
        phaseModulusOf group.echelonForm.matrix group.productPhases = 1) ∨
      (iPow 1 ∉ group.toSubgroup ∧ iPow 2 ∈ group.toSubgroup ∧
          phaseModulusOf group.echelonForm.matrix group.productPhases = 2) ∨
        (iPow 1 ∉ group.toSubgroup ∧ (∀ j, group.binaryRank ≤ j → j < group.generators.length →
            (group.standardProduct j).phase = 0) ∧
          phaseModulusOf group.echelonForm.matrix group.productPhases = 4) := by
  have hmem : ∀ j, j ∈ ((List.range (group.generators.length - group.binaryRank)).map
      (group.binaryRank + ·)).reverse ↔
        group.binaryRank ≤ j ∧ j < group.generators.length := by
    intro j
    rw [mem_reverse, mem_map]
    constructor
    · rintro ⟨i, hi, rfl⟩
      have := mem_range.mp hi
      omega
    · rintro ⟨hle, hlt⟩
      exact ⟨j - group.binaryRank, mem_range.mpr (by omega), by omega⟩
  have hrest : ∀ j ∈ (List.range group.binaryRank).reverse.head?,
      group.echelonForm.matrix.row j ≠ 0 := by
    intro j hj
    refine group.row_echelonForm_ne_zero ?_
    have hj' := mem_of_mem_head? hj
    rwa [mem_reverse, mem_range] at hj'
  rw [phaseModulusOf, rowCount_echelonForm, range_generators, reverse_append,
    phaseModulusFrom_append (fun j hj => group.row_echelonForm_eq_zero ((hmem j).mp hj).1) hrest
      (Or.inr rfl)]
  have hodd : iPow 1 ∈ group.toSubgroup ↔
      ∃ j ∈ ((List.range (group.generators.length - group.binaryRank)).map
        (group.binaryRank + ·)).reverse, group.productPhases.getD j 0 % 2 = 1 := by
    rw [odd_productPhases_iff]
    exact exists_congr fun j => by rw [hmem, and_assoc]
  by_cases hone : iPow 1 ∈ group.toSubgroup
  · exact Or.inl ⟨hone, if_pos (hodd.mp hone)⟩
  right
  rw [if_neg (mt hodd.mpr hone)]
  split_ifs with htwo
  · obtain ⟨j, hj, hvalue⟩ := htwo
    obtain ⟨hj, hjm⟩ := (hmem j).mp hj
    refine Or.inl ⟨hone, ?_, rfl⟩
    rw [toSubgroup_eq]
    refine group.standardFamily.iPow_two_mem_iff.mpr (Or.inr (Or.inl ⟨j, hj, hjm, ?_⟩))
    change (group.standardProduct j).phase = 2
    rw [← (group.getD_productPhases hjm).2, hvalue]
    rfl
  · refine Or.inr ⟨hone, fun j hj hjm => ?_, rfl⟩
    have hj' := (hmem j).mpr ⟨hj, hjm⟩
    obtain ⟨hlt, hphase⟩ := group.getD_productPhases hjm
    rw [← hphase]
    rcases eq_of_lt_four hlt with hvalue | hvalue | hvalue | hvalue
    · rw [hvalue]
      rfl
    · exact absurd (hodd.mpr ⟨j, hj', by rw [hvalue]; rfl⟩) hone
    · exact absurd ⟨j, hj', hvalue⟩ htwo
    · exact absurd (hodd.mpr ⟨j, hj', by rw [hvalue]; rfl⟩) hone

theorem areAllCommuting_iff {elements : List PauliUnitary} : areAllCommuting elements = true ↔
      elements.Pairwise fun a b => anti a.toPhased b.toPhased = false := by
  induction elements with
  | nil => simp [areAllCommuting]
  | cons a elements ih =>
    rw [areAllCommuting, Bool.and_eq_true, all_eq_true, ih, pairwise_cons]
    simp [PauliUnitary.antiCommutesWith_eq]

def scalarPauli (exponent : UInt8) : PauliUnitary :=
  { PauliUnitary.neutralElement with xzPhaseExp := exponent }

theorem toPhased_scalarPauli (exponent : UInt8) :
    (scalarPauli exponent).toPhased = iPow (PauliUnitary.phaseResidue exponent) :=
  rfl

/-- The nonzero rows of the echelon form as Paulis with the given phase exponents. -/
def rowPaulis (exponents : ℕ → UInt8) : List PauliUnitary :=
  (List.range group.binaryRank).map fun j =>
    asSparsePauli (group.echelonForm.matrix.row j) (exponents j) group.support

theorem rowPaulis_congr {e f : ℕ → UInt8} (h : ∀ j, j < group.binaryRank → e j = f j) :
    group.rowPaulis e = group.rowPaulis f :=
  map_congr_left fun j hj => by rw [h j (mem_range.mp hj)]

theorem toPhased_asSparsePauli_row (j : ℕ) (exponent : UInt8) :
    (asSparsePauli (group.echelonForm.matrix.row j) exponent group.support).toPhased =
      iPow (PauliUnitary.phaseResidue exponent - (group.standardProduct j).phase) *
        group.standardProduct j := by
  obtain ⟨hx, hz⟩ := asSparsePauli_bits group.nodup_support
    (group.below_row_echelonForm j) exponent
  obtain ⟨hdx, hdz⟩ := group.decode_row j
  refine PhasedPauli.ext ?_ ?_ ?_
  · rw [mul_phase, iPow_phase, iPow_zBits, Bits.dot_zero_left, twist_false, add_zero,
      sub_add_cancel]
    rfl
  · rw [mul_xBits, iPow_xBits, zero_add, ← hdx, ← hx]
    rfl
  · rw [mul_zBits, iPow_zBits, zero_add, ← hdz, ← hz]
    rfl

/-- Two products of generators anticommute, or one is not Hermitian. -/
def Reduces : Prop :=
  (∃ i j, i < group.binaryRank ∧ j < group.binaryRank ∧
      anti (group.standardProduct i) (group.standardProduct j) = true) ∨
    ∃ j, j < group.binaryRank ∧ ¬ OrderTwo (group.standardProduct j)

theorem reduces_rowPaulis_iff {exponents : ℕ → UInt8} (hexponents : ∀ j, j < group.binaryRank → ∃ b,
      PauliUnitary.phaseResidue (exponents j) = twist b + (group.standardProduct j).phase) :
    (((group.rowPaulis exponents).any fun g => !g.isOrderTwo) ||
      !areAllCommuting (group.rowPaulis exponents)) = true ↔ group.Reduces := by
  have hanti : ∀ i j e f,
      anti (asSparsePauli (group.echelonForm.matrix.row i) e group.support).toPhased
          (asSparsePauli (group.echelonForm.matrix.row j) f group.support).toPhased =
        anti (group.standardProduct i) (group.standardProduct j) := by
    intro i j e f
    rw [toPhased_asSparsePauli_row, toPhased_asSparsePauli_row, anti_mul_left, anti_iPow_left,
      Bool.false_xor, anti_mul_right, anti_iPow_right, Bool.false_xor]
  have horder : ∀ j, j < group.binaryRank →
      ((asSparsePauli (group.echelonForm.matrix.row j) (exponents j) group.support).isOrderTwo =
        true ↔ OrderTwo (group.standardProduct j)) := by
    intro j hj
    obtain ⟨b, hb⟩ := hexponents j hj
    rw [PauliUnitary.isOrderTwo_iff, toPhased_asSparsePauli_row, hb, add_sub_cancel_right]
    constructor
    · intro h
      have hsign := h.sign_mul b
      rwa [← mul_assoc, ← iPow_add, twist_add_self, iPow_zero, one_mul] at hsign
    · exact fun h => h.sign_mul b
  have hcommuting : areAllCommuting (group.rowPaulis exponents) = true ↔
      ∀ i j, i < group.binaryRank → j < group.binaryRank →
        anti (group.standardProduct i) (group.standardProduct j) = false := by
    rw [areAllCommuting_iff, rowPaulis, pairwise_map]
    constructor
    · intro h i j hi hj
      have hlt := pairwise_iff_getElem.mp h
      rcases Nat.lt_trichotomy i j with hij | rfl | hij
      · have := hlt i j (by simpa using hi) (by simpa using hj) hij
        rwa [getElem_range, getElem_range, hanti] at this
      · exact anti_self _
      · have := hlt j i (by simpa using hj) (by simpa using hi) hij
        rw [getElem_range, getElem_range, hanti] at this
        rw [anti_comm, this]
    · intro h
      refine pairwise_iff_getElem.mpr fun i j hi hj _ => ?_
      rw [getElem_range, getElem_range, hanti]
      exact h i j (by simpa using hi) (by simpa using hj)
  rw [Bool.or_eq_true, any_eq_true, Bool.not_eq_true', ← Bool.not_eq_true, hcommuting, Reduces,
    or_comm]
  refine or_congr ?_ ?_
  · push Not
    simp only [Bool.not_eq_false, exists_and_left]
  · simp only [rowPaulis, mem_map, mem_range]
    constructor
    · rintro ⟨_, ⟨j, hj, rfl⟩, hnot⟩
      exact ⟨j, hj, fun h => by simp [(horder j hj).mpr h] at hnot⟩
    · rintro ⟨j, hj, hnot⟩
      refine ⟨_, ⟨j, hj, rfl⟩, ?_⟩
      simpa using mt (horder j hj).mp hnot

/-- The exponents that a modulus leaves of the products of generators. -/
def reducedPhases (modulus : UInt8) (j : ℕ) : UInt8 :=
  group.productPhases.getD j 0 % modulus

theorem takeWhile_map_range {α : Type*} {p : α → Bool} {f : ℕ → α} {r m : ℕ} (hrm : r ≤ m)
    (htrue : ∀ j, j < r → p (f j) = true) (hfalse : ∀ j, r ≤ j → j < m → p (f j) = false) :
    ((List.range m).map f).takeWhile p = (List.range r).map f := by
  obtain ⟨d, rfl⟩ := Nat.exists_eq_add_of_le hrm
  rw [range_add, map_append, takeWhile_append_of_pos]
  · cases d with
    | zero => simp
    | succ d =>
      rw [range_succ_eq_map, map_cons, map_cons, takeWhile_cons_of_neg, append_nil]
      rw [hfalse _ (by omega) (by omega)]
      decide
  · intro a ha
    obtain ⟨j, hj, rfl⟩ := mem_map.mp ha
    exact htrue j (mem_range.mp hj)

theorem nonzeroGenerators_eq (modulus : UInt8) :
    nonzeroGenerators group.echelonForm.matrix group.productPhases modulus group.support =
      group.rowPaulis (group.reducedPhases modulus) := by
  rw [nonzeroGenerators, takeWhile_map_range (r := group.binaryRank)]
  · rw [map_map]
    rfl
  · rw [rowCount_echelonForm]
    exact group.binaryRank_le
  · intro j hj
    simpa using group.row_echelonForm_ne_zero hj
  · intro j hj _
    simpa using group.row_echelonForm_eq_zero hj

/-- The forms of standard generators, by the scalars that the group contains. -/
inductive StandardShape : List PauliUnitary → Prop
  | imaginary
      (hone : iPow 1 ∈ group.toSubgroup) :
      StandardShape (group.rowPaulis (group.reducedPhases 1) ++ [scalarPauli 1])
  | reduced
      (hone : iPow 1 ∉ group.toSubgroup)
      (htwo : iPow 2 ∈ group.toSubgroup)
      (hreduces : group.Reduces) :
      StandardShape (group.rowPaulis (group.reducedPhases 2))
  | negative
      (hone : iPow 1 ∉ group.toSubgroup)
      (htwo : iPow 2 ∈ group.toSubgroup)
      (hreduces : ¬ group.Reduces) :
      StandardShape (group.rowPaulis (group.reducedPhases 2) ++ [scalarPauli 2])
  | positive
      (htwo : iPow 2 ∉ group.toSubgroup)
      (hrank : group.binaryRank ≠ 0) :
      StandardShape (group.rowPaulis (group.reducedPhases 4))
  | trivial
      (htwo : iPow 2 ∉ group.toSubgroup)
      (hrank : group.binaryRank = 0)
      {p : PauliUnitary}
      (hp : p.toPhased = 1) :
      StandardShape [p]

theorem rowPaulis_isEmpty (exponents : ℕ → UInt8) :
    (group.rowPaulis exponents).isEmpty = decide (group.binaryRank = 0) := by
  rw [Bool.eq_iff_iff, List.isEmpty_iff, decide_eq_true_iff, rowPaulis, List.map_eq_nil_iff,
    List.range_eq_nil]

theorem Reduces.binaryRank_ne_zero {group : PauliGroup} (h : group.Reduces) :
    group.binaryRank ≠ 0 := by
  rcases h with ⟨i, _, hi, _⟩ | ⟨i, hi, _⟩ <;> omega

/-- Append the scalar of the modulus unless it is one. -/
def withPhaseElement (exponents : ℕ → UInt8) (modulus : UInt8) : List PauliUnitary :=
  if modulus % 4 ≠ 0 ∨ group.binaryRank = 0 ∧ 0 < group.generators.length then
    group.rowPaulis exponents ++ [scalarPauli modulus]
  else group.rowPaulis exponents

theorem asStandardGenerators_eq {modulus : UInt8}
    (hmodulus : phaseModulusOf group.echelonForm.matrix group.productPhases = modulus) :
    ∃ reduces : Bool,
      ((∀ j, j < group.binaryRank → ∃ b, PauliUnitary.phaseResidue (group.reducedPhases modulus j) =
        twist b + (group.standardProduct j).phase) → (reduces = true ↔ group.Reduces)) ∧
        asStandardGenerators group.echelonForm.matrix group.productPhases group.support =
          if reduces then group.withPhaseElement
            (fun j => PauliUnitary.phaseValue (group.reducedPhases modulus j) % 2) (modulus % 2)
          else group.withPhaseElement (group.reducedPhases modulus) modulus := by
  refine ⟨_, group.reduces_rowPaulis_iff, ?_⟩
  unfold asStandardGenerators
  simp only [hmodulus, nonzeroGenerators_eq, rowCount_echelonForm]
  have hmap : ((group.rowPaulis (group.reducedPhases modulus)).map fun generator =>
      { generator with xzPhaseExp := PauliUnitary.phaseValue generator.xzPhaseExp % 2 }) =
        group.rowPaulis fun j => PauliUnitary.phaseValue (group.reducedPhases modulus j) % 2 :=
    map_map
  generalize (((group.rowPaulis (group.reducedPhases modulus)).any fun g => !g.isOrderTwo) ||
    !areAllCommuting (group.rowPaulis (group.reducedPhases modulus))) = reduces
  cases reduces with
  | true =>
    simp only [if_true, hmap, rowPaulis_isEmpty, withPhaseElement, decide_eq_true_eq]
    rfl
  | false =>
    simp only [Bool.false_eq_true, if_false, rowPaulis_isEmpty, withPhaseElement,
      decide_eq_true_eq]
    rfl

theorem phaseResidue_reducedPhases (hj : j < group.binaryRank) :
    (∃ b, PauliUnitary.phaseResidue (group.reducedPhases 2 j) =
        twist b + (group.standardProduct j).phase) ∧
      PauliUnitary.phaseResidue (group.reducedPhases 4 j) = (group.standardProduct j).phase ∧
        PauliUnitary.phaseValue (group.reducedPhases 2 j) % 2 = group.reducedPhases 2 j ∧
          PauliUnitary.phaseValue (group.reducedPhases 4 j) % 2 = group.reducedPhases 2 j := by
  obtain ⟨hlt, hphase⟩ := group.getD_productPhases (lt_of_lt_of_le hj group.binaryRank_le)
  rw [← hphase]
  unfold reducedPhases
  rcases eq_of_lt_four hlt with h | h | h | h <;> rw [h] <;> decide

theorem standardShape : group.StandardShape group.standardGenerators := by
  have hgenerators : group.standardGenerators =
      if (asStandardGenerators group.echelonForm.matrix group.productPhases group.support).isEmpty
        then [.neutralElement]
      else asStandardGenerators group.echelonForm.matrix group.productPhases group.support :=
    rfl
  have hmem := group.standardFamily.iPow_two_mem_iff
  rw [← toSubgroup_eq] at hmem
  have hreducesMem : group.Reduces → iPow 2 ∈ group.toSubgroup :=
    fun h => hmem.mpr (Or.inr (Or.inr h))
  have hnonempty : ∀ exponents, group.binaryRank ≠ 0 →
      (group.rowPaulis exponents).isEmpty = false := by
    intro exponents h
    rw [rowPaulis_isEmpty, decide_eq_false h]
  rcases group.phaseModulusOf_cases with ⟨hone, hmodulus⟩ | ⟨hone, htwo, hmodulus⟩ |
    ⟨hone, hzero, hmodulus⟩
  · obtain ⟨reduces, _, heq⟩ := group.asStandardGenerators_eq hmodulus
    have hvalue : asStandardGenerators group.echelonForm.matrix group.productPhases group.support =
        group.rowPaulis (group.reducedPhases 1) ++ [scalarPauli 1] := by
      rw [heq]
      have hexponents : ∀ j, PauliUnitary.phaseValue (group.reducedPhases 1 j) % 2 =
          group.reducedPhases 1 j := by
        intro j
        rw [reducedPhases, UInt8.mod_one]
        rfl
      cases reduces with
      | true =>
        rw [if_pos rfl, withPhaseElement, if_pos (Or.inl (by decide)),
          group.rowPaulis_congr fun j _ => hexponents j]
        rfl
      | false => rw [if_neg (by decide), withPhaseElement, if_pos (Or.inl (by decide))]
    rw [hgenerators, hvalue, if_neg (by simp)]
    exact StandardShape.imaginary hone
  · obtain ⟨reduces, hiff, heq⟩ := group.asStandardGenerators_eq hmodulus
    have hreduces := hiff fun j hj => (group.phaseResidue_reducedPhases hj).1
    cases reduces with
    | true =>
      have hred := hreduces.mp rfl
      have hrank := hred.binaryRank_ne_zero
      rw [if_pos rfl, withPhaseElement, if_neg (by simp [hrank]),
        group.rowPaulis_congr fun j hj => (group.phaseResidue_reducedPhases hj).2.2.1] at heq
      rw [hgenerators, heq, if_neg (by simp [hnonempty _ hrank])]
      exact StandardShape.reduced hone htwo hred
    | false =>
      rw [if_neg (by decide), withPhaseElement, if_pos (Or.inl (by decide))] at heq
      rw [hgenerators, heq, if_neg (by simp)]
      exact StandardShape.negative hone htwo (mt hreduces.mpr (by decide))
  · obtain ⟨reduces, hiff, heq⟩ := group.asStandardGenerators_eq hmodulus
    have hreduces := hiff fun j hj => ⟨false, by
      rw [(group.phaseResidue_reducedPhases hj).2.1, twist_false, zero_add]⟩
    cases reduces with
    | true =>
      have hred := hreduces.mp rfl
      have hrank := hred.binaryRank_ne_zero
      rw [if_pos rfl, withPhaseElement, if_neg (by simp [hrank]),
        group.rowPaulis_congr fun j hj => (group.phaseResidue_reducedPhases hj).2.2.2] at heq
      rw [hgenerators, heq, if_neg (by simp [hnonempty _ hrank])]
      exact StandardShape.reduced hone (hreducesMem hred) hred
    | false =>
      have htwo : iPow 2 ∉ group.toSubgroup := by
        rw [hmem]
        rintro (h | ⟨j, hj, hjm, hphase⟩ | h)
        · exact hone h
        · rw [show (Bits.orderedProd group.operators
            (group.echelonForm.transform.row j)).phase = 0 from hzero j hj hjm] at hphase
          cases hphase
        · exact absurd (hreduces.mpr h) (by decide)
      by_cases hrank : group.binaryRank = 0
      · have hnil : ∀ exponents, group.rowPaulis exponents = [] := by
          intro exponents
          rw [rowPaulis, hrank, range_zero, map_nil]
        rw [if_neg (by decide), withPhaseElement, hnil, nil_append] at heq
        by_cases hlength : 0 < group.generators.length
        · rw [if_pos (Or.inr ⟨hrank, hlength⟩)] at heq
          rw [hgenerators, heq, if_neg (by simp)]
          exact StandardShape.trivial htwo hrank (p := scalarPauli 4) (by decide)
        · rw [if_neg (by simp [hlength])] at heq
          rw [hgenerators, heq, isEmpty_nil, if_pos rfl]
          exact StandardShape.trivial htwo hrank PauliUnitary.toPhased_neutralElement
      · rw [if_neg (by decide), withPhaseElement, if_neg (by simp [hrank])] at heq
        rw [hgenerators, heq, if_neg (by simp [hnonempty _ hrank])]
        exact StandardShape.positive htwo hrank

theorem iPow_two_mem (hone : iPow 1 ∈ group.toSubgroup) : iPow 2 ∈ group.toSubgroup := by
  have hsquare := group.toSubgroup.mul_mem hone hone
  rwa [← iPow_add] at hsquare

theorem weight_asSparsePauli_row (hj : j < group.binaryRank) (exponent : UInt8) :
    (asSparsePauli (group.echelonForm.matrix.row j) exponent group.support).weight ≠ 0 := by
  intro hweight
  obtain ⟨hx, hz⟩ := PauliUnitary.weight_eq_zero_iff.mp hweight
  obtain ⟨hx', hz'⟩ := asSparsePauli_bits group.nodup_support (group.below_row_echelonForm j)
    exponent
  refine group.row_echelonForm_ne_zero hj (decode_injective group.nodup_support
    (group.below_row_echelonForm j) (Bits.below_zero _) ?_ ?_)
  · rw [← hx', hx, decodeX_zero]
  · rw [← hz', hz, decodeZ_zero]

theorem weight_eq_zero_of_toPhased {p : PauliUnitary} {k : ZMod 4} (hp : p.toPhased = iPow k) :
    p.weight = 0 :=
  PauliUnitary.weight_eq_zero_iff.mpr ⟨congrArg xBits hp, congrArg zBits hp⟩

theorem exists_rowPaulis_append :
    ∃ exponents tail, group.standardGenerators = group.rowPaulis exponents ++ tail ∧
      ∀ p ∈ tail, p.weight = 0 := by
  have hshape := group.standardShape
  generalize group.standardGenerators = generators at hshape
  have hscalar : ∀ exponent, ∀ p ∈ [scalarPauli exponent], p.weight = 0 := by
    intro exponent p hp
    rw [mem_singleton.mp hp]
    exact weight_eq_zero_of_toPhased (toPhased_scalarPauli exponent)
  cases hshape with
  | imaginary hone => exact ⟨_, _, rfl, hscalar 1⟩
  | reduced hone htwo hreduces => exact ⟨_, [], (append_nil _).symm, by simp⟩
  | negative hone htwo hreduces => exact ⟨_, _, rfl, hscalar 2⟩
  | positive htwo hrank => exact ⟨_, [], (append_nil _).symm, by simp⟩
  | @trivial htwo hrank p hp =>
    refine ⟨fun _ => 0, [p], ?_, fun p' hp' => ?_⟩
    · rw [rowPaulis, hrank, range_zero, map_nil, nil_append]
    · rw [mem_singleton.mp hp']
      exact weight_eq_zero_of_toPhased (hp.trans iPow_zero.symm)

theorem areAllCommuting_append_scalar (elements : List PauliUnitary) (exponent : UInt8) :
    areAllCommuting (elements ++ [scalarPauli exponent]) = areAllCommuting elements := by
  rw [Bool.eq_iff_iff, areAllCommuting_iff, areAllCommuting_iff, pairwise_append]
  refine ⟨fun h => h.1, fun h => ⟨h, pairwise_singleton _ _, fun a _ b hb => ?_⟩⟩
  rw [mem_singleton.mp hb, toPhased_scalarPauli, anti_iPow_right]

theorem generatesImaginaryIdentity_rowPaulis (exponents : ℕ → UInt8) (tail : List PauliUnitary) :
    generatesImaginaryIdentity (group.rowPaulis exponents ++ tail) =
      generatesImaginaryIdentity tail := by
  unfold generatesImaginaryIdentity
  rw [any_append, Bool.or_eq_right_iff_imp, any_eq_true]
  rintro ⟨_, hmem, hscalar⟩
  obtain ⟨j, hj, rfl⟩ := mem_map.mp hmem
  have hweight := group.weight_asSparsePauli_row (mem_range.mp hj) (exponents j)
  simp [hweight] at hscalar

theorem generatesNegativeIdentity_rowPaulis {exponents : ℕ → UInt8}
    (hexponents : ∀ j, j < group.binaryRank → ∃ b,
      PauliUnitary.phaseResidue (exponents j) = twist b + (group.standardProduct j).phase)
    (tail : List PauliUnitary) : generatesNegativeIdentity (group.rowPaulis exponents ++ tail)
        (areAllCommuting (group.rowPaulis exponents)) = true ↔
      group.Reduces ∨ generatesNegativeIdentity tail true = true := by
  rw [← group.reduces_rowPaulis_iff hexponents]
  have hrows : ((group.rowPaulis exponents).any fun g =>
      !g.isOrderTwo || (g.weight == 0 && PauliUnitary.phaseValue g.xzPhaseExp == 2)) =
        (group.rowPaulis exponents).any fun g => !g.isOrderTwo := by
    rw [Bool.eq_iff_iff, any_eq_true, any_eq_true]
    refine exists_congr fun g => and_congr_right fun hg => ?_
    obtain ⟨j, hj, rfl⟩ := mem_map.mp hg
    have hweight := group.weight_asSparsePauli_row (mem_range.mp hj) (exponents j)
    simp [hweight]
  unfold generatesNegativeIdentity
  rw [any_append, hrows]
  simp only [Bool.or_eq_true, Bool.not_true, Bool.false_or]
  tauto

theorem phases_cases : (iPow 1 ∈ group.toSubgroup ∧ group.phases = [0, 1, 2, 3]) ∨
      (iPow 1 ∉ group.toSubgroup ∧ iPow 2 ∈ group.toSubgroup ∧ group.phases = [0, 2]) ∨
        (iPow 2 ∉ group.toSubgroup ∧ group.phases = [0]) := by
  have hshape := group.standardShape
  unfold phases phasesGeneratedBy isAbelian
  generalize group.standardGenerators = generators at hshape
  cases hshape with
  | imaginary hone =>
    refine Or.inl ⟨hone, if_pos ?_⟩
    rw [generatesImaginaryIdentity_rowPaulis]
    decide
  | reduced hone htwo hreduces =>
    refine Or.inr (Or.inl ⟨hone, htwo, ?_⟩)
    have himaginary := group.generatesImaginaryIdentity_rowPaulis (group.reducedPhases 2) []
    have hnegative := group.generatesNegativeIdentity_rowPaulis
      (fun j hj => (group.phaseResidue_reducedPhases hj).1) []
    rw [append_nil] at himaginary hnegative
    rw [himaginary, if_neg (by decide), if_pos (hnegative.mpr (Or.inl hreduces))]
  | negative hone htwo hreduces =>
    refine Or.inr (Or.inl ⟨hone, htwo, ?_⟩)
    have hnegative := group.generatesNegativeIdentity_rowPaulis
      (fun j hj => (group.phaseResidue_reducedPhases hj).1) [scalarPauli 2]
    rw [generatesImaginaryIdentity_rowPaulis, if_neg (by decide), areAllCommuting_append_scalar,
      if_pos (hnegative.mpr (Or.inr (by decide)))]
  | positive htwo hrank =>
    refine Or.inr (Or.inr ⟨htwo, ?_⟩)
    have hreduces : ¬ group.Reduces := by
      intro h
      refine htwo ?_
      rw [toSubgroup_eq]
      exact group.standardFamily.iPow_two_mem_iff.mpr (Or.inr (Or.inr h))
    have himaginary := group.generatesImaginaryIdentity_rowPaulis (group.reducedPhases 4) []
    have hnegative := group.generatesNegativeIdentity_rowPaulis (fun j hj => ⟨false, by
      rw [(group.phaseResidue_reducedPhases hj).2.1, twist_false, zero_add]⟩) []
    rw [append_nil] at himaginary hnegative
    rw [himaginary, if_neg (by decide), if_neg]
    rw [hnegative]
    rintro (h | h)
    · exact hreduces h
    · exact absurd h (by decide)
  | @trivial htwo hrank p hp =>
    refine Or.inr (Or.inr ⟨htwo, ?_⟩)
    have hphase : PauliUnitary.phaseResidue p.xzPhaseExp = 0 := congrArg phase hp
    have hodd : (p.xzPhaseExp &&& 1 != 0) = false := by
      rw [bne, PauliUnitary.phase_even_iff, hphase]
      decide
    have htwoValue : (PauliUnitary.phaseValue p.xzPhaseExp == 2) = false := by
      rw [PauliUnitary.phaseValue_eq_two_iff, hphase]
      decide
    have horder : p.isOrderTwo = true := by
      rw [PauliUnitary.isOrderTwo_iff, hp]
      exact orderTwo_one
    simp [generatesImaginaryIdentity, generatesNegativeIdentity, areAllCommuting, hodd,
      htwoValue, horder]

theorem phases_contains_iff {exponent : UInt8} (hexponent : exponent < 4) :
    group.phases.contains exponent = true ↔
      iPow (PauliUnitary.phaseResidue exponent) ∈ group.toSubgroup := by
  have hpow : ∀ {k : ZMod 4}, iPow 1 ∈ group.toSubgroup → iPow k ∈ group.toSubgroup := by
    intro k hone
    refine iPow_mem_of_le (G := ⊤) (fun _ => hone) (fun _ => group.iPow_two_mem hone) ?_
    exact Subgroup.mem_top _
  have hthree : iPow 3 ∈ group.toSubgroup → iPow 1 ∈ group.toSubgroup := by
    intro hthree
    have hinv := group.toSubgroup.inv_mem hthree
    rwa [show (iPow 3)⁻¹ = iPow 1 by decide] at hinv
  have hzero : iPow 0 ∈ group.toSubgroup := group.toSubgroup.one_mem
  rcases group.phases_cases with ⟨hone, hphases⟩ | ⟨hone, htwo, hphases⟩ | ⟨htwo, hphases⟩
  · rw [hphases]
    refine ⟨fun _ => hpow hone, fun _ => ?_⟩
    rcases eq_of_lt_four hexponent with rfl | rfl | rfl | rfl <;> simp
  · rw [hphases]
    rcases eq_of_lt_four hexponent with rfl | rfl | rfl | rfl
    · exact ⟨fun _ => hzero, fun _ => by simp⟩
    · exact ⟨fun h => absurd h (by decide), fun h => absurd h hone⟩
    · exact ⟨fun _ => htwo, fun _ => by simp⟩
    · exact ⟨fun h => absurd h (by decide), fun h => absurd (hthree h) hone⟩
  · have hone : iPow 1 ∉ group.toSubgroup := mt group.iPow_two_mem htwo
    rw [hphases]
    rcases eq_of_lt_four hexponent with rfl | rfl | rfl | rfl
    · exact ⟨fun _ => hzero, fun _ => by simp⟩
    · exact ⟨fun h => absurd h (by decide), fun h => absurd h hone⟩
    · exact ⟨fun h => absurd h (by decide), fun h => absurd h htwo⟩
    · exact ⟨fun h => absurd h (by decide), fun h => absurd (hthree h) hone⟩

/-- The elements commute and minus one is none of them. -/
def isStabilizerGroup : Bool :=
  group.isAbelian && !generatesNegativeIdentity group.standardGenerators group.isAbelian

theorem generatesNegativeIdentity_of_imaginary {generators : List PauliUnitary}
    (h : generatesImaginaryIdentity generators = true) (allCommute : Bool) :
    generatesNegativeIdentity generators allCommute = true := by
  obtain ⟨g, hg, hscalar⟩ := any_eq_true.mp h
  obtain ⟨hodd, hweight⟩ := (Bool.and_eq_true _ _).mp hscalar
  obtain ⟨-, hz⟩ := PauliUnitary.weight_eq_zero_iff.mp (beq_iff_eq.mp hweight)
  have horder : g.isOrderTwo = false := by
    rw [PauliUnitary.isOrderTwo, PauliUnitary.yParity, hz]
    simpa using hodd
  simp only [generatesNegativeIdentity, Bool.or_eq_true, any_eq_true]
  exact Or.inr ⟨g, hg, by rw [horder]; simp⟩

/-- The test accepts exactly the groups without minus one, and all elements of such a group commute
and are of order two. -/
theorem isStabilizerGroup_spec :
    (group.isStabilizerGroup = true ↔ iPow 2 ∉ group.toSubgroup) ∧
      (group.isStabilizerGroup = true → ∀ p ∈ group.toSubgroup,
        OrderTwo p ∧ ∀ q ∈ group.toSubgroup, p * q = q * p) := by
  have hiff : group.isStabilizerGroup = true ↔ iPow 2 ∉ group.toSubgroup := by
    have hcases := group.phases_cases
    rw [phases, phasesGeneratedBy] at hcases
    rw [isStabilizerGroup]
    split_ifs at hcases with himaginary hnegative
    · rw [generatesNegativeIdentity_of_imaginary himaginary]
      have hone := hcases.resolve_right (by simp)
      simp [group.iPow_two_mem hone.1]
    · simp_all
    · have htwo := (hcases.resolve_left (by simp)).resolve_left (by simp)
      simp_all [generatesNegativeIdentity]
  refine ⟨hiff, fun hstabilizer p hp => ⟨?_, fun q hq => mul_comm_of_not_anti ?_⟩⟩
  · by_contra horder
    exact hiff.mp hstabilizer (iPow_two_mem_of_not_orderTwo hp horder)
  · rw [← Bool.not_eq_true]
    exact fun hanti => hiff.mp hstabilizer (iPow_two_mem_of_anti hp hq hanti)

end PauliGroup

end QdkEc
