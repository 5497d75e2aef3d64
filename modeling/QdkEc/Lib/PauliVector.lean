import QdkEc.Lib.RowSpace
import QdkEc.Lib.Transvection
import QdkEc.Lib.Conjugation

/-!
# Paulis modulo phases

The phased Paulis modulo their phases form a vector space over two elements with
an alternating form that records which operators anticommute.  A homomorphism
that fixes the scalars acts on it by a linear isometry, and a Pauli exponential
acts by a transvection.
-/

namespace QdkEc

open PhasedPauli Finset Submodule Transvection

/-- Phased Paulis modulo phases: the `X` bits and the `Z` bits. -/
abbrev PauliVector :=
  Bits × Bits

namespace PauliVector

/-- The operator of phase zero with the given bits. -/
def operator (v : PauliVector) : PhasedPauli where
  phase := 0
  xBits := v.1
  zBits := v.2

/-- A commutation sign as a scalar. -/
def signBit (b : Bool) : ZMod 2 :=
  if b then 1 else 0

theorem signBit_xor (a b : Bool) : signBit (a ^^ b) = signBit a + signBit b := by
  cases a <;> cases b <;> decide

@[simp]
theorem signBit_eq_one {b : Bool} : signBit b = 1 ↔ b = true := by
  cases b <;> decide

@[simp]
theorem signBit_eq_zero {b : Bool} : signBit b = 0 ↔ b = false := by
  cases b <;> decide

end PauliVector

namespace PhasedPauli

open PauliVector

/-- The operator modulo phases. -/
def vector (p : PhasedPauli) : PauliVector :=
  (p.xBits, p.zBits)

@[simp]
theorem vector_operator (v : PauliVector) : v.operator.vector = v :=
  rfl

@[simp]
theorem vector_mul (p q : PhasedPauli) : (p * q).vector = p.vector + q.vector :=
  rfl

@[simp]
theorem vector_iPow (k : ZMod 4) : (iPow k).vector = 0 :=
  rfl

theorem vector_iPow_mul (k : ZMod 4) (p : PhasedPauli) : (iPow k * p).vector = p.vector := by
  rw [vector_mul, vector_iPow, zero_add]

theorem eq_iPow_mul_operator (p : PhasedPauli) : p = iPow p.phase * p.vector.operator := by
  ext1 <;> simp [operator, vector]

theorem exists_iPow_mul_of_vector_eq {p q : PhasedPauli} (h : p.vector = q.vector) :
    ∃ k, iPow k * p = q := by
  refine ⟨q.phase - p.phase, ?_⟩
  rw [eq_iPow_mul_operator p, eq_iPow_mul_operator q, h, ← mul_assoc, ← iPow_add]
  simp

theorem vector_mem_span_iff {S : Set PhasedPauli} {p : PhasedPauli} :
    p.vector ∈ Submodule.span (ZMod 2) (vector '' S) ↔ ∃ k, iPow k * p ∈ Subgroup.closure S := by
  constructor
  · intro hp
    have hgroup : ∀ v ∈ Submodule.span (ZMod 2) (vector '' S),
        ∃ q ∈ Subgroup.closure S, q.vector = v := by
      intro v hv
      induction hv using span_induction with
      | mem v hv =>
        obtain ⟨q, hq, rfl⟩ := hv
        exact ⟨q, Subgroup.subset_closure hq, rfl⟩
      | zero => exact ⟨1, Subgroup.one_mem _, rfl⟩
      | add u v _ _ hu hv =>
        obtain ⟨q, hq, rfl⟩ := hu
        obtain ⟨r, hr, rfl⟩ := hv
        exact ⟨q * r, Subgroup.mul_mem _ hq hr, rfl⟩
      | smul c v _ hv =>
        rcases (show c = 0 ∨ c = 1 by revert c; decide) with rfl | rfl
        · exact ⟨1, Subgroup.one_mem _, (zero_smul _ v).symm⟩
        · rwa [one_smul]
    obtain ⟨q, hq, hvector⟩ := hgroup _ hp
    obtain ⟨k, hk⟩ := exists_iPow_mul_of_vector_eq hvector.symm
    exact ⟨k, hk ▸ hq⟩
  · rintro ⟨k, hk⟩
    rw [← vector_iPow_mul k p]
    generalize iPow k * p = q at hk
    induction hk using Subgroup.closure_induction with
    | mem r hr => exact subset_span ⟨r, hr, rfl⟩
    | one => exact zero_mem _
    | mul r s _ _ hr hs => exact add_mem hr hs
    | inv r _ hr => exact hr

end PhasedPauli

namespace PauliVector

theorem operator_add (u v : PauliVector) :
    ∃ k, (u + v).operator = iPow k * (u.operator * v.operator) :=
  ⟨-(u.operator * v.operator).phase, by ext1 <;> simp [operator]⟩

theorem anti_operator_add_left (u v w : PauliVector) : anti (u + v).operator w.operator =
      (anti u.operator w.operator ^^ anti v.operator w.operator) := by
  obtain ⟨k, hk⟩ := operator_add u v
  rw [hk, anti_mul_left, anti_iPow_left, Bool.false_xor, anti_mul_left]

/-- The form whose value is one on anticommuting operators. -/
def form : LinearMap.BilinForm (ZMod 2) PauliVector :=
  Transvection.formOfAdditive (fun u v => signBit (anti u.operator v.operator))
    (fun u v w => by rw [anti_operator_add_left, signBit_xor])
    (fun u v w => by
      rw [anti_comm, anti_operator_add_left, signBit_xor, anti_comm, anti_comm w.operator])

theorem form_apply (u v : PauliVector) : form u v = signBit (anti u.operator v.operator) :=
  rfl

theorem form_vector (p q : PhasedPauli) : form p.vector q.vector = signBit (anti p q) :=
  rfl

theorem isAlt_form : form.IsAlt := by
  intro u
  rw [form_apply, anti_self]
  rfl

theorem separating_form : Transvection.Separating form := by
  intro v hv
  have hscalar : v.operator = iPow v.operator.phase := by
    apply eq_iPow_of_commutes
    intro q
    have hq := hv q.vector
    rw [form_apply, signBit_eq_zero] at hq
    rw [anti_comm]
    exact hq
  have hvector := congrArg vector hscalar
  rwa [vector_operator, vector_iPow] at hvector

section Action

variable (φ : PhasedPauli →* PhasedPauli) (hφ : ∀ k, φ (iPow k) = iPow k)

/-- The action of a scalar-fixing homomorphism modulo phases. -/
def action : PauliVector →ₗ[ZMod 2] PauliVector :=
  AddMonoidHom.toZModLinearMap 2
    { toFun v := (φ v.operator).vector
      map_zero' := by
        change (φ (iPow 0)).vector = 0
        rw [hφ, vector_iPow]
      map_add' u v := by
        obtain ⟨k, hk⟩ := operator_add u v
        rw [hk, map_mul, hφ, vector_iPow_mul, map_mul, vector_mul] }

theorem action_apply (v : PauliVector) : action φ hφ v = (φ v.operator).vector :=
  rfl

@[simp]
theorem action_vector (p : PhasedPauli) : action φ hφ p.vector = (φ p).vector := by
  conv_rhs => rw [eq_iPow_mul_operator p, map_mul, hφ, vector_iPow_mul]
  rfl

theorem isometry_action : Transvection.Isometry form (action φ hφ) := by
  intro u v
  rw [action_apply, action_apply, form_vector, anti_map hφ]
  rfl

end Action

theorem vector_pauliExp (q r : PhasedPauli) :
    (pauliExp q r).vector = along form q.vector r.vector := by
  rw [along_apply, form_vector, anti_comm]
  cases h : anti q r with
  | false =>
    rw [pauliExp_of_not_anti h]
    simp [signBit]
  | true =>
    rw [pauliExp_of_anti h, vector_iPow_mul, vector_mul, add_comm]
    simp [signBit]

/-- The generators modulo phases. -/
def generators : Set PauliVector :=
  {v | ∃ i, v = (X i).vector ∨ v = (Z i).vector}

theorem span_generators : Submodule.span (ZMod 2) generators = ⊤ := by
  rw [eq_top_iff]
  rintro v -
  suffices h : ∀ p : PhasedPauli, p.vector ∈ Submodule.span (ZMod 2) generators from h v.operator
  intro p
  induction p using generator_induction with
  | scalar k => exact zero_mem _
  | x i => exact subset_span ⟨i, Or.inl rfl⟩
  | z i => exact subset_span ⟨i, Or.inr rfl⟩
  | mul p q hp hq => exact add_mem hp hq

theorem residue_le_of_generators {F : PauliVector →ₗ[ZMod 2] PauliVector}
    {W : Submodule (ZMod 2) PauliVector} (h : ∀ v ∈ generators, v + F v ∈ W) : residue F ≤ W := by
  rintro _ ⟨v, rfl⟩
  have hv : v ∈ Submodule.span (ZMod 2) generators := by
    rw [span_generators]
    trivial
  have hle : Submodule.span (ZMod 2) generators ≤ W.comap (LinearMap.id + F) :=
    span_le.mpr h
  exact hle hv

section Bounded

variable {F : PauliVector →ₗ[ZMod 2] PauliVector} {n : ℕ}

/-- The map fixes the generators from the `n`-th qubit on. -/
def FixesFrom (n : ℕ) (F : PauliVector →ₗ[ZMod 2] PauliVector) : Prop :=
  ∀ i, n ≤ i → F (X i).vector = (X i).vector ∧ F (Z i).vector = (Z i).vector

/-- The residue vectors of the generators of the first `n` qubits. -/
def residueGenerators (n : ℕ) (F : PauliVector →ₗ[ZMod 2] PauliVector) : Finset PauliVector :=
  (Finset.range n).image (fun i => (X i).vector + F (X i).vector) ∪
    (Finset.range n).image fun i => (Z i).vector + F (Z i).vector

theorem residue_le_span_residueGenerators (hF : FixesFrom n F) :
    residue F ≤ Submodule.span (ZMod 2) (residueGenerators n F : Set PauliVector) := by
  refine residue_le_of_generators ?_
  rintro v ⟨i, hv⟩
  rcases Nat.lt_or_ge i n with hi | hi
  · refine subset_span (mem_coe.mpr ?_)
    rcases hv with rfl | rfl
    · exact mem_union_left _ (mem_image.mpr ⟨i, mem_range.mpr hi, rfl⟩)
    · exact mem_union_right _ (mem_image.mpr ⟨i, mem_range.mpr hi, rfl⟩)
  · have hfix : F v = v := by
      rcases hv with rfl | rfl
      · exact (hF i hi).1
      · exact (hF i hi).2
    rw [hfix, ZModModule.add_self]
    exact zero_mem _

theorem finiteDimensional_residue (hF : FixesFrom n F) : FiniteDimensional (ZMod 2) (residue F) :=
  finiteDimensional_of_le (residue_le_span_residueGenerators hF)

theorem finrank_residue_le (hF : FixesFrom n F) : Module.finrank (ZMod 2) (residue F) ≤ 2 * n := by
  have hspan := finrank_mono (residue_le_span_residueGenerators hF)
  have hcard := finrank_span_finset_le_card (R := ZMod 2) (residueGenerators n F)
  have hunion : (residueGenerators n F).card ≤ n + n := by
    refine (card_union_le _ _).trans (Nat.add_le_add ?_ ?_)
    · exact card_image_le.trans_eq (card_range n)
    · exact card_image_le.trans_eq (card_range n)
  unfold Set.finrank at hcard
  omega

end Bounded

end PauliVector

end QdkEc
