import Mathlib.LinearAlgebra.BilinearForm.Properties
import Mathlib.LinearAlgebra.Transvection.Basic
import Mathlib.Algebra.Module.ZMod
import Mathlib.Algebra.Field.ZMod

/-!
# Symplectic transvections over two elements

This module develops products of transvections `x ↦ x + ⟨x, v⟩ v` for an
alternating form over the field with two elements.  The *residue* of an isometry
`F` is the range of `F + 1`, and `F` is *hyperbolic* when every vector is
orthogonal to its image.  A transvection along a vector `x + F x` that is not
orthogonal to `x` lowers the dimension of the residue; when `F` is hyperbolic, a
transvection along any residue vector keeps the residue and leaves the
hyperbolic case.

It also studies lists of vectors of length one, each of them right-orthogonal to all
later ones, for a bilinear form: the form is a unit lower triangular matrix in them.  A
space is spanned by one exactly when it is zero or has a vector of length one whose
right-orthogonal complement in the space is spanned by one.  A bordered list has one
vector more than the dimension: every vector carries a bit, the vectors with a one sum
up to zero, and their number is odd.  When the form is that of an isometry on its
residue, the transvections along such a list compose to the isometry.
-/

namespace QdkEc

open Submodule ZModModule

namespace Transvection

section Products

open Module

variable {V : Type*} [AddCommGroup V] [Module (ZMod 2) V]

/-- The form of a function of two vectors that is additive in both. -/
def formOfAdditive (f : V → V → ZMod 2) (hleft : ∀ u v w, f (u + v) w = f u w + f v w)
    (hright : ∀ u v w, f u (v + w) = f u v + f u w) :
    LinearMap.BilinForm (ZMod 2) V :=
  AddMonoidHom.toZModLinearMap 2
    (AddMonoidHom.mk' (fun u => AddMonoidHom.toZModLinearMap 2 (AddMonoidHom.mk' (f u) (hright u)))
      fun u v => LinearMap.ext fun w => hleft u v w)

section Definitions

variable (B : LinearMap.BilinForm (ZMod 2) V)

/-- The transvection along a vector. -/
def along (v : V) : V →ₗ[ZMod 2] V :=
  LinearMap.transvection (B.flip v) v

/-- The product of the transvections along a list of vectors; the last one acts first. -/
def product : List V → V →ₗ[ZMod 2] V
  | [] => LinearMap.id
  | v :: vs => along B v ∘ₗ product vs

/-- The map preserves the form. -/
def Isometry (F : V →ₗ[ZMod 2] V) : Prop :=
  ∀ x y, B (F x) (F y) = B x y

/-- Every vector is orthogonal to its image. -/
def Hyperbolic (F : V →ₗ[ZMod 2] V) : Prop :=
  ∀ x, B x (F x) = 0

/-- The form separates vectors from zero. -/
def Separating : Prop :=
  ∀ v, (∀ y, B y v = 0) → v = 0

end Definitions

/-- The vectors `x + F x`. -/
def residue (F : V →ₗ[ZMod 2] V) : Submodule (ZMod 2) V :=
  LinearMap.range (LinearMap.id + F)

variable {B : LinearMap.BilinForm (ZMod 2) V} {F : V →ₗ[ZMod 2] V}

theorem along_apply (v x : V) : along B v x = x + B x v • v :=
  rfl

theorem scalar_cases (c : ZMod 2) : c = 0 ∨ c = 1 := by
  revert c
  decide

variable {v : V}

theorem mem_residue : v ∈ residue F ↔ ∃ x, x + F x = v :=
  Iff.rfl

theorem hyperbolic_of_span {S : Set V} (hS : Submodule.span (ZMod 2) S = ⊤)
    (hself : ∀ s ∈ S, B s (F s) = 0) (hpolar : ∀ s ∈ S, ∀ t ∈ S, B s (F t) = B t (F s)) :
    Hyperbolic B F := by
  have hright : ∀ s ∈ S, B s ∘ₗ F = B.flip (F s) :=
    fun s hs => LinearMap.ext_on hS fun t ht => hpolar s hs t ht
  have hboth : ∀ u v, B u (F v) = B v (F u) := by
    intro u v
    have hleft : B.flip (F v) = B v ∘ₗ F :=
      LinearMap.ext_on hS fun s hs => LinearMap.congr_fun (hright s hs) v
    exact LinearMap.congr_fun hleft u
  intro v
  have hv : v ∈ Submodule.span (ZMod 2) S := by
    rw [hS]
    trivial
  induction hv using span_induction with
  | mem s hs => exact hself s hs
  | zero => rw [map_zero, map_zero, LinearMap.zero_apply]
  | add u v _ _ hu hv =>
    rw [map_add, map_add, map_add, LinearMap.add_apply, LinearMap.add_apply, hu, hv, zero_add,
      add_zero, hboth v u, add_self]
  | smul c v _ hv =>
    rw [map_smul, map_smul, LinearMap.smul_apply, map_smul, hv, smul_zero, smul_zero]

theorem residue_along_comp_le (v : V) :
    residue (along B v ∘ₗ F) ≤ Submodule.span (ZMod 2) {v} ⊔ residue F := by
  rintro _ ⟨x, rfl⟩
  have hsum : x + along B v (F x) = B (F x) v • v + (x + F x) := by
    rw [along_apply]
    abel
  change x + along B v (F x) ∈ _
  rw [hsum]
  refine add_mem_sup ?_ ⟨x, rfl⟩
  exact smul_mem _ _ (mem_span_singleton_self v)

theorem residue_along_comp_le_of_mem (hv : v ∈ residue F) :
    residue (along B v ∘ₗ F) ≤ residue F := by
  refine (residue_along_comp_le v).trans (sup_le ?_ le_rfl)
  rwa [span_singleton_le_iff_mem]

variable (vs : List V)

theorem residue_product_le :
    residue (product B vs) ≤ Submodule.span (ZMod 2) {v | v ∈ vs} := by
  induction vs with
  | nil =>
    rintro _ ⟨x, rfl⟩
    change x + x ∈ _
    rw [add_self]
    exact zero_mem _
  | cons v vs ih =>
    refine (residue_along_comp_le v).trans (sup_le ?_ (ih.trans ?_))
    · refine span_mono ?_
      rintro _ rfl
      exact List.mem_cons_self
    · exact span_mono fun w hw => List.mem_cons_of_mem v hw

theorem finrank_span_list_le :
    finrank (ZMod 2) (Submodule.span (ZMod 2) {v | v ∈ vs}) ≤ vs.length := by
  classical
  have hset : {v | v ∈ vs} = (vs.toFinset : Set V) := by
    ext v
    simp
  rw [hset]
  exact (finrank_span_finset_le_card vs.toFinset).trans (List.toFinset_card_le vs)

theorem finiteDimensional_span_list :
    FiniteDimensional (ZMod 2) (Submodule.span (ZMod 2) {v | v ∈ vs}) :=
  FiniteDimensional.span_of_finite _ vs.finite_toSet

theorem finrank_residue_product_le :
    finrank (ZMod 2) (residue (product B vs)) ≤ vs.length := by
  have hfinite := finiteDimensional_span_list vs
  exact (finrank_mono (residue_product_le vs)).trans (finrank_span_list_le vs)

section Isometries

variable (halt : B.IsAlt)

include halt

theorem form_comm (x y : V) : B x y = B y x := by
  rw [← halt.neg_eq x y, ZModModule.neg_eq_self]

theorem isometry_along (v : V) : Isometry B (along B v) := by
  intro x y
  have hv : B v v = 0 := halt v
  have htwo : B x v * B y v + B x v * B y v = 0 := add_self _
  rw [along_apply, along_apply]
  simp only [map_add, map_smul, LinearMap.add_apply, LinearMap.smul_apply, smul_eq_mul, hv,
    form_comm halt v y]
  linear_combination htwo

theorem Isometry.along_comp (hF : Isometry B F) (v : V) : Isometry B (along B v ∘ₗ F) :=
  fun x y => (isometry_along halt v (F x) (F y)).trans (hF x y)

theorem along_along (v x : V) : along B v (along B v x) = x := by
  have hv : B v v = 0 := halt v
  have hform : B (along B v x) v = B x v := by
    rw [along_apply]
    simp [hv]
  rw [along_apply (B := B) v (along B v x), hform, along_apply, add_assoc, ← add_smul,
    add_self, zero_smul, add_zero]

theorem along_residue_apply {x : V} (hx : B x (F x) = 1) : along B (x + F x) (F x) = x := by
  have hself : B (F x) (F x) = 0 := halt (F x)
  have hform : B (F x) (x + F x) = 1 := by rw [map_add, hself, add_zero, form_comm halt, hx]
  rw [along_apply, hform, one_smul, add_left_comm, add_self, add_zero]

omit halt in
theorem form_eq_zero_of_fixed (hF : Isometry B F) {x v : V} (hx : F x = x) (hv : v ∈ residue F) :
    B x v = 0 := by
  obtain ⟨y, rfl⟩ := mem_residue.mp hv
  have himage : B x (F y) = B x y := by
    conv_lhs => rw [← hx]
    exact hF x y
  rw [map_add, himage, add_self]

theorem residue_along_comp_lt (hF : Isometry B F) {x : V} (hx : B x (F x) = 1) :
    residue (along B (x + F x) ∘ₗ F) < residue F := by
  have hv : x + F x ∈ residue F := ⟨x, rfl⟩
  refine lt_of_le_of_ne (residue_along_comp_le_of_mem hv) fun heq => ?_
  rw [← heq] at hv
  have horth := form_eq_zero_of_fixed (hF.along_comp halt (x + F x))
    (along_residue_apply halt hx) hv
  have hself : B x x = 0 := halt x
  rw [map_add, hself, zero_add, hx] at horth
  exact one_ne_zero horth

theorem form_along_comp_of_hyperbolic (hF : Isometry B F) (hH : Hyperbolic B F)
    (hv : v ∈ residue F) (y : V) : B y (along B v (F y)) = B y v := by
  obtain ⟨x, rfl⟩ := mem_residue.mp hv
  have hpolar : B x (F y) + B y (F x) = 0 := by
    have hsum := hH (x + y)
    simpa [hH x, hH y, add_comm] using hsum
  have hcross : B (F y) x = B y (F x) := by
    rw [form_comm halt, ← sub_eq_zero, sub_eq_add]
    exact hpolar
  have himage : B (F y) (F x) = B y x :=
    hF y x
  have hform : B (F y) (x + F x) = B y (x + F x) := by
    rw [map_add, map_add, hcross, himage, add_comm]
  rw [along_apply, hform, map_add, hH y, zero_add, map_smul, smul_eq_mul]
  rcases scalar_cases (B y (x + F x)) with h | h <;> simp only [h] <;> norm_num

theorem not_hyperbolic_along_comp (hsep : Separating B) (hF : Isometry B F) (hH : Hyperbolic B F)
    (hv : v ∈ residue F) (hne : v ≠ 0) : ¬ Hyperbolic B (along B v ∘ₗ F) := by
  intro hH'
  refine hne (hsep v fun y => ?_)
  rw [← form_along_comp_of_hyperbolic halt hF hH hv y]
  exact hH' y

end Isometries

/-- A vector along which the greedy reduction multiplies by a transvection: a residue vector not
orthogonal to its source, or in the hyperbolic case any nonzero residue vector. -/
inductive Step (B : LinearMap.BilinForm (ZMod 2) V) (F : V →ₗ[ZMod 2] V) :
    V → Prop
  | lowering {x : V} :
      B x (F x) = 1 →
      Step B F (x + F x)
  | leaving {v : V} :
      Hyperbolic B F →
      v ∈ residue F →
      v ≠ 0 →
      Step B F v

open Classical in
/-- Twice the dimension of the residue, and one more in the hyperbolic case. -/
noncomputable def cost (B : LinearMap.BilinForm (ZMod 2) V) (F : V →ₗ[ZMod 2] V) : ℕ :=
  2 * finrank (ZMod 2) (residue F) + if Hyperbolic B F then 1 else 0

theorem Step.cost_lt [FiniteDimensional (ZMod 2) (residue F)] (halt : B.IsAlt) (hsep : Separating B)
    (hF : Isometry B F) (h : Step B F v) : cost B (along B v ∘ₗ F) < cost B F := by
  classical
  cases h with
  | lowering hx =>
    have hrank := finrank_lt_finrank_of_lt (residue_along_comp_lt halt hF hx)
    unfold cost
    split_ifs <;> omega
  | leaving hH hv hne =>
    have hrank := finrank_mono (residue_along_comp_le_of_mem (B := B) hv)
    unfold cost
    rw [if_neg (not_hyperbolic_along_comp halt hsep hF hH hv hne), if_pos hH]
    omega

theorem cost_le : cost B F ≤ 2 * finrank (ZMod 2) (residue F) + 1 := by
  unfold cost
  split_ifs <;> omega

end Products

open List

section Triangular

variable {V : Type*} [AddCommGroup V] [Module (ZMod 2) V] (β : LinearMap.BilinForm (ZMod 2) V)

/-- Vectors of length one, each right-orthogonal to all later ones. -/
structure Triangular (l : List V) : Prop where
  unit : ∀ v ∈ l, β v v = 1
  orthogonal : l.Pairwise fun v w => β v w = 0

/-- The space that the vectors of a list span. -/
def spanOf (l : List V) : Submodule (ZMod 2) V :=
  Submodule.span (ZMod 2) {v | v ∈ l}

/-- The space is spanned by a triangular list. -/
def Triangularizable (U : Submodule (ZMod 2) V) : Prop :=
  ∃ l, Triangular β l ∧ spanOf l = U

/-- The vectors of a space that are right-orthogonal to a vector. -/
def rightOrthogonal (v : V) (U : Submodule (ZMod 2) V) : Submodule (ZMod 2) V :=
  U ⊓ LinearMap.ker (β v)

/-- The form vanishes on equal vectors of the space. -/
def AlternatingOn (U : Submodule (ZMod 2) V) : Prop :=
  ∀ v ∈ U, β v v = 0

variable {β}

variable {U : Submodule (ZMod 2) V}

variable {v : V} {l : List V}

theorem mem_rightOrthogonal {w : V} : w ∈ rightOrthogonal β v U ↔ w ∈ U ∧ β v w = 0 :=
  Iff.rfl

@[simp]
theorem spanOf_nil : spanOf ([] : List V) = ⊥ := by
  simp [spanOf]

theorem mem_spanOf (hv : v ∈ l) : v ∈ spanOf l :=
  subset_span hv

theorem spanOf_le : spanOf l ≤ U ↔ ∀ v ∈ l, v ∈ U :=
  span_le

theorem spanOf_cons (v : V) (l : List V) :
    spanOf (v :: l) = Submodule.span (ZMod 2) {v} ⊔ spanOf l := by
  rw [spanOf, spanOf, ← span_union]
  congr 1
  ext w
  simp

theorem triangular_nil : Triangular β [] :=
  ⟨by simp, List.Pairwise.nil⟩

theorem triangular_cons :
    Triangular β (v :: l) ↔ β v v = 1 ∧ (∀ w ∈ l, β v w = 0) ∧ Triangular β l := by
  constructor
  · intro h
    obtain ⟨hhead, htail⟩ := pairwise_cons.mp h.orthogonal
    exact ⟨h.unit v mem_cons_self, hhead, fun w hw => h.unit w (mem_cons_of_mem v hw), htail⟩
  · rintro ⟨hv, hhead, h⟩
    refine ⟨fun w hw => ?_, pairwise_cons.mpr ⟨hhead, h.orthogonal⟩⟩
    rcases mem_cons.mp hw with rfl | hw
    · exact hv
    · exact h.unit w hw

theorem span_sup_rightOrthogonal (hv : v ∈ U) (hunit : β v v = 1) :
    Submodule.span (ZMod 2) {v} ⊔ rightOrthogonal β v U = U := by
  refine le_antisymm (sup_le ?_ inf_le_left) fun w hw => ?_
  · rwa [span_singleton_le_iff_mem]
  · have hsplit : w = β v w • v + (w - β v w • v) := by
      abel
    rw [hsplit]
    refine Submodule.add_mem_sup (Submodule.smul_mem _ _ (Submodule.mem_span_singleton_self v))
      (mem_rightOrthogonal.mpr ⟨Submodule.sub_mem _ hw (Submodule.smul_mem _ _ hv), ?_⟩)
    rw [map_sub, map_smul, hunit, smul_eq_mul, mul_one, sub_self]

theorem rightOrthogonal_spanOf_cons (hunit : β v v = 1)
    (hl : ∀ w ∈ l, β v w = 0) : rightOrthogonal β v (spanOf (v :: l)) = spanOf l := by
  have hzero : ∀ w ∈ spanOf l, β v w = 0 := by
    intro w hw
    have hle : spanOf l ≤ LinearMap.ker (β v) := spanOf_le.mpr hl
    exact hle hw
  refine le_antisymm ?_ fun w hw => ⟨?_, hzero w hw⟩
  · rintro w ⟨hw, horth⟩
    rw [spanOf_cons] at hw
    obtain ⟨a, ha, b, hb, rfl⟩ := mem_sup.mp hw
    obtain ⟨c, rfl⟩ := Submodule.mem_span_singleton.mp ha
    have hc : c = 0 := by
      have hvalue : β v (c • v + b) = 0 := horth
      rwa [map_add, map_smul, hunit, hzero b hb, add_zero, smul_eq_mul, mul_one] at hvalue
    rw [hc, zero_smul, zero_add]
    exact hb
  · rw [spanOf_cons]
    exact mem_sup_right hw

theorem triangularizable_iff : Triangularizable β U ↔
      U = ⊥ ∨ ∃ v ∈ U, β v v = 1 ∧ Triangularizable β (rightOrthogonal β v U) := by
  constructor
  · rintro ⟨l, hl, rfl⟩
    cases l with
    | nil => exact Or.inl spanOf_nil
    | cons v l =>
      obtain ⟨hunit, hhead, htail⟩ := triangular_cons.mp hl
      exact Or.inr ⟨v, mem_spanOf mem_cons_self, hunit, l, htail,
        (rightOrthogonal_spanOf_cons hunit hhead).symm⟩
  · rintro (rfl | ⟨v, hv, hunit, l, hl, hspan⟩)
    · exact ⟨[], triangular_nil, spanOf_nil⟩
    · refine ⟨v :: l, triangular_cons.mpr ⟨hunit, fun w hw => ?_, hl⟩, ?_⟩
      · have hmem := mem_spanOf hw
        rw [hspan] at hmem
        exact hmem.2
      · rw [spanOf_cons, hspan, span_sup_rightOrthogonal hv hunit]

theorem AlternatingOn.not_triangularizable (h : AlternatingOn β U) (hU : U ≠ ⊥) :
    ¬ Triangularizable β U := by
  rw [triangularizable_iff]
  rintro (hzero | ⟨v, hv, hunit, _⟩)
  · exact hU hzero
  · rw [h v hv] at hunit
    exact zero_ne_one hunit

theorem AlternatingOn.comm (h : AlternatingOn β U) {u : V} (hu : u ∈ U) (hv : v ∈ U) :
    β u v = β v u := by
  have hsum := h (u + v) (Submodule.add_mem _ hu hv)
  rw [map_add, map_add, LinearMap.add_apply, LinearMap.add_apply, h u hu, h v hv, zero_add,
    add_zero, ← ZModModule.sub_eq_add, sub_eq_zero] at hsum
  exact hsum.symm

theorem alternatingOn_spanOf (hself : ∀ v ∈ l, β v v = 0)
    (hsymm : ∀ v ∈ l, ∀ w ∈ l, β v w = β w v) : AlternatingOn β (spanOf l) := by
  have hright : ∀ v ∈ l, ∀ w ∈ spanOf l, β v w = β w v := by
    intro v hv w hw
    have hle : spanOf l ≤ LinearMap.ker (β v - β.flip v) := by
      refine spanOf_le.mpr fun w hw => ?_
      rw [LinearMap.mem_ker, LinearMap.sub_apply, LinearMap.BilinForm.flip_apply, hsymm v hv w hw,
        sub_self]
    exact sub_eq_zero.mp (hle hw)
  intro v hv
  have hclosed : ∀ w ∈ spanOf l, β w w = 0 ∧ ∀ u ∈ spanOf l, β w u = β u w := by
    intro w hw
    induction hw using span_induction with
    | mem w hw => exact ⟨hself w hw, hright w hw⟩
    | zero => simp
    | add a b ha hb iha ihb =>
      refine ⟨?_, fun u hu => ?_⟩
      · rw [map_add, map_add, LinearMap.add_apply, LinearMap.add_apply, iha.1, ihb.1, ihb.2 a ha,
          zero_add, add_zero, ZModModule.add_self]
      · rw [map_add, LinearMap.add_apply, map_add, iha.2 u hu, ihb.2 u hu]
    | smul c a _ iha =>
      refine ⟨?_, fun u hu => ?_⟩
      · rw [map_smul, map_smul, LinearMap.smul_apply, iha.1, smul_zero, smul_zero]
      · rw [map_smul, LinearMap.smul_apply, map_smul, iha.2 u hu]
  exact (hclosed v hv).1

section Complement

variable {v p : V} {l : List V}

theorem spanOf_map_coupled (hp : β v p = 1) (l : List V) :
    spanOf (l.map fun w => w + β v w • p) = rightOrthogonal β v (spanOf (p :: l)) := by
  let project : V →ₗ[ZMod 2] V := LinearMap.id + (β v).smulRight p
  have hproject : ∀ w, project w = w + β v w • p := fun _ => rfl
  refine le_antisymm (spanOf_le.mpr fun u hu => ?_) ?_
  · obtain ⟨w, hw, rfl⟩ := mem_map.mp hu
    refine mem_rightOrthogonal.mpr ⟨Submodule.add_mem _ (mem_spanOf (mem_cons_of_mem p hw))
      (Submodule.smul_mem _ _ (mem_spanOf mem_cons_self)), ?_⟩
    rw [map_add, map_smul, hp, smul_eq_mul, mul_one, ZModModule.add_self]
  · rintro w ⟨hw, horth⟩
    -- The projection along the coupled vector fixes the vector and maps the span into the new one.
    have hfixed : project w = w := by rw [hproject, show β v w = 0 from horth, zero_smul, add_zero]
    have hmap : spanOf (p :: l) ≤ (spanOf (l.map fun w => w + β v w • p)).comap project := by
      refine spanOf_le.mpr fun u hu => ?_
      rw [mem_comap, hproject]
      rcases mem_cons.mp hu with rfl | hu
      · rw [hp, one_smul, ZModModule.add_self]
        exact zero_mem _
      · exact mem_spanOf (mem_map_of_mem hu)
    rw [← hfixed]
    exact hmap hw

theorem spanOf_perm {l m : List V} (h : l.Perm m) : spanOf l = spanOf m := by
  simp only [spanOf, h.mem_iff]

/-- A list without a dependency spans as many dimensions as it has entries. -/
def FullRank (l : List V) : Prop :=
  Module.finrank (ZMod 2) (spanOf l) = l.length

theorem FullRank.spanOf_ne_bot (h : FullRank l) (hl : l ≠ []) : spanOf l ≠ ⊥ := by
  intro hzero
  rw [FullRank, hzero, finrank_bot] at h
  exact hl (length_eq_zero_iff.mp h.symm)

theorem FullRank.ne_zero {v : V} {l : List V} (h : FullRank (v :: l)) : v ≠ 0 := by
  rintro rfl
  have hle : Module.finrank (ZMod 2) (spanOf l) ≤ l.length := finrank_span_list_le l
  rw [FullRank, spanOf_cons, span_singleton_eq_bot.mpr rfl, bot_sup_eq, length_cons] at h
  omega

theorem FullRank.tail {v : V} {l : List V} (h : FullRank (v :: l)) : FullRank l := by
  have hle : Module.finrank (ZMod 2) (spanOf l) ≤ l.length := finrank_span_list_le l
  have hfinite : FiniteDimensional (ZMod 2) (spanOf l) := finiteDimensional_span_list l
  have hbound := finrank_add_le_finrank_add_finrank (Submodule.span (ZMod 2) {v})
    (spanOf l)
  rw [← spanOf_cons, h, finrank_span_singleton h.ne_zero, length_cons] at hbound
  rw [FullRank]
  omega

theorem FullRank.of_span {l m : List V} (h : FullRank l) (hspan : spanOf l ≤ spanOf m)
    (hlength : m.length = l.length) : FullRank m := by
  have hle : Module.finrank (ZMod 2) (spanOf m) ≤ m.length := finrank_span_list_le m
  have hfinite : FiniteDimensional (ZMod 2) (spanOf m) := finiteDimensional_span_list m
  have hmono := finrank_mono hspan
  rw [h] at hmono
  rw [FullRank]
  omega

theorem FullRank.rightOrthogonal (h : FullRank l) (hv : v ∈ spanOf l) (hunit : β v v = 1)
    {m : List V} (hspan : spanOf m = rightOrthogonal β v (spanOf l))
    (hlength : m.length + 1 = l.length) : FullRank m := by
  refine (h.of_span (m := v :: m) ?_ hlength).tail
  rw [spanOf_cons, hspan, span_sup_rightOrthogonal hv hunit]

theorem Triangular.fullRank {l : List V} (h : Triangular β l) : FullRank l := by
  induction l with
  | nil =>
    rw [FullRank, spanOf_nil, finrank_bot]
    rfl
  | cons v l ih =>
    obtain ⟨hunit, hhead, htail⟩ := triangular_cons.mp h
    have hne : v ≠ 0 := by
      rintro rfl
      rw [map_zero] at hunit
      exact zero_ne_one hunit
    have hdisjoint : Submodule.span (ZMod 2) {v} ⊓ spanOf l = ⊥ := by
      rw [Submodule.eq_bot_iff]
      rintro w ⟨hw, hl⟩
      obtain ⟨c, rfl⟩ := Submodule.mem_span_singleton.mp hw
      rw [← rightOrthogonal_spanOf_cons hunit hhead] at hl
      have hzero : β v (c • v) = 0 := hl.2
      rw [map_smul, hunit, smul_eq_mul, mul_one] at hzero
      rw [hzero, zero_smul]
    have hfinite : FiniteDimensional (ZMod 2) (spanOf l) := finiteDimensional_span_list l
    have hsum := finrank_sup_add_finrank_inf_eq (Submodule.span (ZMod 2) {v}) (spanOf l)
    rw [hdisjoint, finrank_bot, ← spanOf_cons, finrank_span_singleton hne, ih htail] at hsum
    rw [FullRank, length_cons]
    omega

end Complement

end Triangular

section Bordered

variable {V : Type*} [AddCommGroup V] [Module (ZMod 2) V] (β : LinearMap.BilinForm (ZMod 2) V)

/-- Only zero is right-orthogonal to the whole space. -/
def RightSeparating (U : Submodule (ZMod 2) V) : Prop :=
  ∀ v ∈ U, (∀ u ∈ U, β u v = 0) → v = 0

/-- The form becomes unit lower triangular when the products of the bits are added. -/
structure Bordered (l : List (V × ZMod 2)) : Prop where
  unit : ∀ p ∈ l, β p.1 p.1 = 1 + p.2
  orthogonal : l.Pairwise fun p q => β p.1 q.1 = p.2 * q.2

/-- A bordered list that spans a space and whose bits are an odd relation. -/
structure BorderedBasis (l : List (V × ZMod 2)) (U : Submodule (ZMod 2) V) : Prop where
  bordered : Bordered β l
  relation : (l.map fun p => p.2 • p.1).sum = 0
  odd : (l.map Prod.snd).sum = 1
  spanOf_eq : spanOf (l.map Prod.fst) = U

variable {β}

variable {U : Submodule (ZMod 2) V}

theorem RightSeparating.rightOrthogonal (h : RightSeparating β U) {p : V}
    (hp : p ∈ U) (hunit : β p p = 1) : RightSeparating β (rightOrthogonal β p U) := by
  rintro v ⟨hv, horth⟩ hzero
  refine h v hv fun u hu => ?_
  rw [← span_sup_rightOrthogonal hp hunit] at hu
  obtain ⟨a, ha, b, hb, rfl⟩ := mem_sup.mp hu
  obtain ⟨c, rfl⟩ := mem_span_singleton.mp ha
  have hpv : β p v = 0 := horth
  rw [map_add, map_smul, LinearMap.add_apply, LinearMap.smul_apply, hpv, smul_zero, zero_add,
    hzero b hb]

variable {l : List (V × ZMod 2)}

theorem bordered_cons {p : V × ZMod 2} : Bordered β (p :: l) ↔
      β p.1 p.1 = 1 + p.2 ∧ (∀ q ∈ l, β p.1 q.1 = p.2 * q.2) ∧ Bordered β l := by
  constructor
  · intro h
    obtain ⟨hhead, htail⟩ := pairwise_cons.mp h.orthogonal
    exact ⟨h.unit p mem_cons_self, hhead, fun q hq => h.unit q (mem_cons_of_mem p hq), htail⟩
  · rintro ⟨hp, hhead, h⟩
    refine ⟨fun q hq => ?_, pairwise_cons.mpr ⟨hhead, h.orthogonal⟩⟩
    rcases mem_cons.mp hq with rfl | hq
    · exact hp
    · exact h.unit q hq

theorem BorderedBasis.peel {p : V} (hp : p ∈ U)
    (hunit : β p p = 1) (h : BorderedBasis β l (rightOrthogonal β p U)) :
    BorderedBasis β ((p, 0) :: l) U where
  bordered := by
    refine bordered_cons.mpr ⟨by rw [add_zero, hunit], fun q hq => ?_, h.bordered⟩
    have hmem : q.1 ∈ rightOrthogonal β p U := by
      rw [← h.spanOf_eq]
      exact mem_spanOf (mem_map_of_mem hq)
    rw [zero_mul]
    exact hmem.2
  relation := by rw [map_cons, sum_cons, zero_smul, zero_add, h.relation]
  odd := by rw [map_cons, sum_cons, zero_add, h.odd]
  spanOf_eq := by rw [map_cons, spanOf_cons, h.spanOf_eq, span_sup_rightOrthogonal hp hunit]

/-- Vectors of length zero, pairwise coupled, odd in number and with the sum zero, that span a
space. -/
structure Simplex (β : LinearMap.BilinForm (ZMod 2) V) (l : List V) (U : Submodule (ZMod 2) V) :
    Prop where
  isotropic : ∀ v ∈ l, β v v = 0
  coupled : l.Pairwise fun v w => β v w = 1
  sum_eq : l.sum = 0
  odd : (l.length : ZMod 2) = 1
  spanOf_eq : spanOf l = U

theorem Simplex.borderedBasis {l : List V} (h : Simplex β l U) :
    BorderedBasis β (l.map fun v => (v, 1)) U where
  bordered := by
    refine ⟨fun p hp => ?_, ?_⟩
    · obtain ⟨v, hv, rfl⟩ := mem_map.mp hp
      exact (h.isotropic v hv).trans (add_self (1 : ZMod 2)).symm
    · rw [pairwise_map]
      refine h.coupled.imp fun hvw => ?_
      rw [hvw, mul_one]
  relation := by
    rw [map_map, ← h.sum_eq]
    congr 1
    exact (map_congr_left fun v _ => one_smul _ v).trans (map_id l)
  odd := by
    have hone : (Prod.snd ∘ fun v : V => (v, (1 : ZMod 2))) = fun _ => 1 := rfl
    rw [map_map, hone, map_const', sum_replicate, nsmul_one, h.odd]
  spanOf_eq := by
    rw [map_map, ← h.spanOf_eq]
    congr 1
    exact map_id l

theorem simplex_zero : Simplex β [(0 : V)] ⊥ where
  isotropic v hv := by rw [mem_singleton.mp hv, map_zero]
  coupled := pairwise_singleton _ _
  sum_eq := sum_singleton
  odd := Nat.cast_one
  spanOf_eq := by simp [spanOf]

/-- The vectors of a space that are right-orthogonal to two vectors. -/
def pairComplement (β : LinearMap.BilinForm (ZMod 2) V) (first second : V)
    (U : Submodule (ZMod 2) V) :
    Submodule (ZMod 2) V :=
  U ⊓ (LinearMap.ker (β first) ⊓ LinearMap.ker (β second))

section Simplex

variable {U : Submodule (ZMod 2) V} {first second : V}
  (hself : AlternatingOn β U)
  (hfirst : first ∈ U)
  (hsecond : second ∈ U)
  (hcoupled : β first second = 1)

include hself hfirst hsecond hcoupled

theorem project_mem_pairComplement {v : V} (hv : v ∈ U) :
    v + β second v • first + β first v • second ∈ pairComplement β first second U := by
  refine ⟨Submodule.add_mem _ (Submodule.add_mem _ hv (Submodule.smul_mem _ _ hfirst))
    (Submodule.smul_mem _ _ hsecond), ?_, ?_⟩
  · rw [SetLike.mem_coe, LinearMap.mem_ker, map_add, map_add, map_smul, map_smul,
      hself first hfirst, hcoupled, smul_zero, add_zero, smul_eq_mul, mul_one, add_self]
  · rw [SetLike.mem_coe, LinearMap.mem_ker, map_add, map_add, map_smul, map_smul,
      hself second hsecond, hself.comm hsecond hfirst, hcoupled, smul_zero, add_zero,
      smul_eq_mul, mul_one, add_self]

theorem span_pair_sup_pairComplement :
    Submodule.span (ZMod 2) {first} ⊔ Submodule.span (ZMod 2) {second} ⊔
      pairComplement β first second U = U := by
  refine le_antisymm (sup_le (sup_le ?_ ?_) inf_le_left) fun v hv => ?_
  · rwa [Submodule.span_singleton_le_iff_mem]
  · rwa [Submodule.span_singleton_le_iff_mem]
  · have hsplit : v = β second v • first + β first v • second +
        (v + β second v • first + β first v • second) := by
      have hfirstTwice := add_self (β second v • first)
      have hsecondTwice := add_self (β first v • second)
      calc v = v + (β second v • first + β second v • first) +
            (β first v • second + β first v • second) := by
              rw [hfirstTwice, hsecondTwice, add_zero, add_zero]
        _ = _ := by
              abel
    rw [hsplit]
    exact add_mem_sup (add_mem_sup
      (Submodule.smul_mem _ _ (mem_span_singleton_self first))
      (Submodule.smul_mem _ _ (mem_span_singleton_self second)))
      (project_mem_pairComplement hself hfirst hsecond hcoupled hv)

theorem RightSeparating.pairComplement (h : RightSeparating β U) :
    RightSeparating β (pairComplement β first second U) := by
  rintro v ⟨hv, hvfirst, hvsecond⟩ hzero
  refine h v hv fun u hu => ?_
  rw [← span_pair_sup_pairComplement hself hfirst hsecond hcoupled] at hu
  obtain ⟨a, ha, b, hb, rfl⟩ := mem_sup.mp hu
  obtain ⟨c, hc, d, hd, rfl⟩ := mem_sup.mp ha
  obtain ⟨c, rfl⟩ := mem_span_singleton.mp hc
  obtain ⟨d, rfl⟩ := mem_span_singleton.mp hd
  have hfirstZero : β first v = 0 := hvfirst
  have hsecondZero : β second v = 0 := hvsecond
  rw [map_add, map_add, map_smul, map_smul, LinearMap.add_apply, LinearMap.add_apply,
    LinearMap.smul_apply, LinearMap.smul_apply, hfirstZero, hsecondZero, hzero b hb, smul_zero,
    smul_zero, add_zero, add_zero]

theorem spanOf_map_project {l : List V} (hU : spanOf (first :: second :: l) = U) :
    spanOf (l.map fun v => v + β second v • first + β first v • second) =
      pairComplement β first second U := by
  let project : V →ₗ[ZMod 2] V :=
    LinearMap.id + (β second).smulRight first + (β first).smulRight second
  have hproject : ∀ v, project v = v + β second v • first + β first v • second := fun _ => rfl
  have hsub : ∀ v ∈ l, v ∈ U := by
    intro v hv
    rw [← hU]
    exact mem_spanOf (mem_cons_of_mem first (mem_cons_of_mem second hv))
  refine le_antisymm (spanOf_le.mpr fun u hu => ?_) ?_
  · obtain ⟨v, hv, rfl⟩ := mem_map.mp hu
    exact project_mem_pairComplement hself hfirst hsecond hcoupled (hsub v hv)
  · rintro w ⟨hw, hwfirst, hwsecond⟩
    -- The projection fixes the vector and sends the pair to zero.
    have hfixed : project w = w := by
      rw [hproject, show β second w = 0 from hwsecond, show β first w = 0 from hwfirst, zero_smul,
        zero_smul, add_zero, add_zero]
    have hmap : spanOf (first :: second :: l) ≤ (spanOf (l.map project)).comap project := by
      refine spanOf_le.mpr fun v hv => ?_
      rw [mem_comap]
      rcases mem_cons.mp hv with rfl | hv
      · rw [hproject, hself v hfirst, hself.comm hsecond hfirst, hcoupled, one_smul, zero_smul,
          add_zero, add_self]
        exact zero_mem _
      · rcases mem_cons.mp hv with rfl | hv
        · rw [hproject, hself v hsecond, hcoupled, one_smul, zero_smul, add_zero, add_self]
          exact zero_mem _
        · exact mem_spanOf (mem_map_of_mem hv)
    rw [← hfixed]
    exact hmap (hU ▸ hw)

theorem Simplex.extend {l : List V} (h : Simplex β l (pairComplement β first second U)) :
    Simplex β (second :: (first + second) :: l.map fun v => v + first) U := by
  have hflip : β second first = 1 := by rw [hself.comm hsecond hfirst, hcoupled]
  have hmem : ∀ v ∈ l, v ∈ U ∧ β first v = 0 ∧ β second v = 0 := by
    intro v hv
    have hv := mem_spanOf hv
    rw [h.spanOf_eq] at hv
    exact ⟨hv.1, hv.2.1, hv.2.2⟩
  have hisotropic : β first first = 0 := hself first hfirst
  have hisotropicSecond : β second second = 0 := hself second hsecond
  have hleft : ∀ v ∈ l, β v first = 0 := by
    intro v hv
    rw [hself.comm (hmem v hv).1 hfirst, (hmem v hv).2.1]
  have hshift : ∀ v ∈ l, ∀ w ∈ l, β (v + first) (w + first) = β v w := by
    intro v hv w hw
    rw [map_add, map_add, LinearMap.add_apply, LinearMap.add_apply, (hmem w hw).2.1, hleft v hv,
      hisotropic, add_zero, add_zero, add_zero]
  refine ⟨?_, ?_, ?_, ?_, ?_⟩
  · intro v hv
    rcases mem_cons.mp hv with rfl | hv
    · exact hisotropicSecond
    · rcases mem_cons.mp hv with rfl | hv
      · exact hself _ (Submodule.add_mem _ hfirst hsecond)
      · obtain ⟨w, hw, rfl⟩ := mem_map.mp hv
        rw [hshift w hw w hw, h.isotropic w hw]
  · refine pairwise_cons.mpr ⟨fun v hv => ?_, pairwise_cons.mpr ⟨fun v hv => ?_, ?_⟩⟩
    · rcases mem_cons.mp hv with rfl | hv
      · rw [map_add, hflip, hisotropicSecond, add_zero]
      · obtain ⟨w, hw, rfl⟩ := mem_map.mp hv
        rw [map_add, (hmem w hw).2.2, hflip, zero_add]
    · obtain ⟨w, hw, rfl⟩ := mem_map.mp hv
      rw [map_add, map_add, LinearMap.add_apply, LinearMap.add_apply, (hmem w hw).2.1,
        (hmem w hw).2.2, hisotropic, hflip, zero_add, zero_add, zero_add]
    · rw [pairwise_map]
      refine h.coupled.imp_of_mem fun hv hw hvw => ?_
      rw [hshift _ hv _ hw, hvw]
  · have hsum : (l.map fun v => v + first).sum = l.sum + (l.length : ZMod 2) • first := by
      rw [sum_map_add, map_id', map_const', sum_replicate, Nat.cast_smul_eq_nsmul]
    rw [sum_cons, sum_cons, hsum, h.sum_eq, h.odd, one_smul, zero_add, ← add_assoc,
      add_comm first second, ← add_assoc, add_self, zero_add, add_self]
  · rw [length_cons, length_cons, length_map, Nat.cast_add, Nat.cast_add, h.odd,
      Nat.cast_one, add_assoc, add_self, add_zero]
  · refine le_antisymm (spanOf_le.mpr fun v hv => ?_) ?_
    · rcases mem_cons.mp hv with rfl | hv
      · exact hsecond
      · rcases mem_cons.mp hv with rfl | hv
        · exact Submodule.add_mem _ hfirst hsecond
        · obtain ⟨w, hw, rfl⟩ := mem_map.mp hv
          exact Submodule.add_mem _ (hmem w hw).1 hfirst
    · have hsecondMem : second ∈ spanOf (second :: (first + second) :: l.map fun v => v + first) :=
        mem_spanOf mem_cons_self
      have hfirstMem : first ∈ spanOf (second :: (first + second) :: l.map fun v => v + first) := by
        have hsum := mem_spanOf (l := second :: (first + second) :: l.map fun v => v + first)
          (mem_cons_of_mem second mem_cons_self)
        have hsub := Submodule.sub_mem _ hsum hsecondMem
        rwa [add_sub_cancel_right] at hsub
      rw [← span_pair_sup_pairComplement hself hfirst hsecond hcoupled, ← h.spanOf_eq]
      refine sup_le (sup_le ?_ ?_) (spanOf_le.mpr fun v hv => ?_)
      · rwa [Submodule.span_singleton_le_iff_mem]
      · rwa [Submodule.span_singleton_le_iff_mem]
      · have hshifted := mem_spanOf (l := second :: (first + second) :: l.map fun v => v + first)
          (mem_cons_of_mem second (mem_cons_of_mem (first + second)
            (mem_map_of_mem (f := fun v => v + first) hv)))
        have hsub := Submodule.sub_mem _ hshifted hfirstMem
        rwa [add_sub_cancel_right] at hsub

end Simplex

theorem BorderedBasis.ne_zero
    (h : BorderedBasis β l U) (hU : ¬ Triangularizable β U) {p : V × ZMod 2} (hp : p ∈ l) :
    p.1 ≠ 0 := by
  intro hzero
  obtain ⟨before, behind, rfl⟩ := append_of_mem hp
  have hbit : p.2 = 1 := by
    have hunit := h.bordered.unit p hp
    rw [hzero, map_zero] at hunit
    have hsub := eq_sub_of_add_eq' hunit.symm
    rwa [sub_eq_add, zero_add] at hsub
  obtain ⟨hbefore, hbehind, hcross⟩ := pairwise_append.mp h.bordered.orthogonal
  obtain ⟨hhead, hbehind⟩ := pairwise_cons.mp hbehind
  -- The other vectors are orthogonal to the zero vector, so their bits are zero.
  have hbits : ∀ q ∈ before ++ behind, q.2 = 0 := by
    intro q hq
    rcases mem_append.mp hq with hq | hq
    · have hvalue := hcross q hq p mem_cons_self
      rw [hzero, map_zero, hbit, mul_one] at hvalue
      exact hvalue.symm
    · have hvalue := hhead q hq
      rw [hzero, map_zero, LinearMap.zero_apply, hbit, one_mul] at hvalue
      exact hvalue.symm
  have hsub : ∀ q ∈ before ++ behind, q ∈ before ++ p :: behind := by
    intro q hq
    rcases mem_append.mp hq with hq | hq
    · exact mem_append_left _ hq
    · exact mem_append_right _ (mem_cons_of_mem p hq)
  refine hU ⟨(before ++ behind).map Prod.fst, ⟨fun v hv => ?_, ?_⟩, ?_⟩
  · obtain ⟨q, hq, rfl⟩ := mem_map.mp hv
    rw [h.bordered.unit q (hsub q hq), hbits q hq, add_zero]
  · have hpairs : (before ++ behind).Pairwise fun q r => β q.1 r.1 = q.2 * r.2 :=
      pairwise_append.mpr ⟨hbefore, hbehind,
        fun q hq r hr => hcross q hq r (mem_cons_of_mem p hr)⟩
    rw [pairwise_map]
    refine hpairs.imp_of_mem fun hq _ hqr => ?_
    rw [hqr, hbits _ hq, zero_mul]
  · have hspan : spanOf ((before ++ p :: behind).map Prod.fst) =
        spanOf (p.1 :: (before ++ behind).map Prod.fst) :=
      spanOf_perm (perm_middle.map Prod.fst)
    rw [← h.spanOf_eq, hspan, spanOf_cons, hzero, span_singleton_eq_bot.mpr rfl, bot_sup_eq]

end Bordered

section Residue

variable {V W : Type*} [AddCommGroup V] [Module (ZMod 2) V] [AddCommGroup W] [Module (ZMod 2) W]

/-- Coordinates of the residue of a map: a vector of the residue for all coordinates, a vector that
the map moves by it, and the form that pairs the one with the other. -/
structure ResidueForm (B : LinearMap.BilinForm (ZMod 2) V) (F : V →ₗ[ZMod 2] V)
    (β : LinearMap.BilinForm (ZMod 2) W) (lift source : W →ₗ[ZMod 2] V) :
    Prop where
  form_eq : ∀ a b, β a b = B (lift a) (source b)
  residue_eq : ∀ b, source b + F (source b) = lift b

variable {B : LinearMap.BilinForm (ZMod 2) V} {F : V →ₗ[ZMod 2] V}
  {β : LinearMap.BilinForm (ZMod 2) W} {lift source : W →ₗ[ZMod 2] V}
  (hB : B.IsAlt) (hF : Isometry B F) (h : ResidueForm B F β lift source)

include hB hF h

omit hB in
theorem ResidueForm.form_of_residue {a b : W} {x : V} (hx : x + F x = lift b) :
    β a b = B (lift a) x := by
  have hfixed : F (source b + x) = source b + x := by
    have hsum : source b + F (source b) = x + F x := by rw [h.residue_eq, hx]
    rw [map_add]
    have hzero : source b + x + (F (source b) + F x) = 0 := by rw [add_add_add_comm, hsum, add_self]
    rw [← sub_eq_add, sub_eq_zero] at hzero
    exact hzero.symm
  have hmoved : B (F (source a)) (source b + x) = B (source a) (source b + x) := by
    rw [← hF (source a), hfixed]
  have horth : B (lift a) (source b + x) = 0 := by
    rw [← h.residue_eq a, LinearMap.map_add₂, hmoved, add_self]
  rw [map_add, ← sub_eq_add, sub_eq_zero] at horth
  rw [h.form_eq, horth]

theorem ResidueForm.polar (a b : W) : β a b + β b a = B (lift a) (lift b) := by
  have hcomm := form_comm hB
  rw [h.form_eq, h.form_eq, ← h.residue_eq a, ← h.residue_eq b]
  simp only [map_add, LinearMap.add_apply]
  rw [hF, hcomm (source b) (source a), hcomm (F (source b)) (source a)]
  ring

omit hB in
theorem ResidueForm.lift_eq_zero {S : Set V} {U : Set W}
    (hS : ∀ x ∈ S, ∃ a ∈ U, lift a = x + F x) (honto : Set.SurjOn F S S) {q : W}
    (hseparating : (∀ y ∈ S, B y (lift q) = 0) → lift q = 0) (hq : ∀ a ∈ U, β a q = 0) :
    lift q = 0 := by
  refine hseparating fun y hy => ?_
  obtain ⟨x, hx, rfl⟩ := honto hy
  obtain ⟨a, hmem, ha⟩ := hS x hx
  have hvalue := hq a hmem
  rw [h.form_eq, ha, LinearMap.map_add₂] at hvalue
  rw [← h.residue_eq q, map_add, hF, add_comm, hvalue]

omit hB hF h in
theorem scalar_mul_self (c : ZMod 2) : c * c = c := by
  rcases scalar_cases c with rfl | rfl
  · exact mul_zero 0
  · exact mul_one 1

/-- What the transvections along the vectors add to a vector, in coordinates. -/
def added (B : LinearMap.BilinForm (ZMod 2) V) (lift : W →ₗ[ZMod 2] V) :
    List (W × ZMod 2) → V → W × ZMod 2
  | [], _ => 0
  | p :: l, x => B x (lift p.1) • p + added B lift l (along B (lift p.1) x)

omit hB hF h in
theorem foldl_along (l : List (W × ZMod 2)) (x : V) :
    l.foldl (fun y p => along B (lift p.1) y) x = x + lift (added B lift l x).1 := by
  induction l generalizing x with
  | nil => rw [foldl_nil, added, Prod.fst_zero, map_zero, add_zero]
  | cons p l ih =>
    rw [foldl_cons, ih, added, along_apply, Prod.fst_add, Prod.smul_fst, map_add, map_smul,
      add_assoc]

variable {l : List (W × ZMod 2)}

omit hB hF h in
theorem form_added_of_before {p : W × ZMod 2} (hp : ∀ q ∈ l, β p.1 q.1 = p.2 * q.2) (x : V) :
    β p.1 (added B lift l x).1 = p.2 * (added B lift l x).2 := by
  induction l generalizing x with
  | nil => rw [added, Prod.fst_zero, Prod.snd_zero, map_zero, mul_zero]
  | cons q l ih =>
    rw [added, Prod.fst_add, Prod.snd_add, Prod.smul_fst, Prod.smul_snd, map_add, map_smul,
      hp q mem_cons_self, ih (fun r hr => hp r (mem_cons_of_mem q hr)), smul_eq_mul,
      smul_eq_mul]
    ring

theorem form_added (hl : Bordered β l) (x : V) {p : W × ZMod 2} (hp : p ∈ l) :
    β p.1 (added B lift l x).1 = p.2 * (added B lift l x).2 + B x (lift p.1) := by
  induction l generalizing x with
  | nil => cases hp
  | cons q l ih =>
    obtain ⟨hunit, hhead, htail⟩ := bordered_cons.mp hl
    rw [added, Prod.fst_add, Prod.snd_add, Prod.smul_fst, Prod.smul_snd, map_add, map_smul,
      smul_eq_mul, smul_eq_mul]
    rcases mem_cons.mp hp with rfl | hp
    · rw [form_added_of_before hhead, hunit]
      linear_combination -(B x (lift p.1)) * scalar_mul_self p.2
    · have hpolar := h.polar hB hF q.1 p.1
      rw [hhead p hp] at hpolar
      have htwice := add_self (β p.1 q.1)
      rw [ih htail _ hp, along_apply, LinearMap.map_add₂, LinearMap.map_smul₂, smul_eq_mul,
        ← hpolar]
      linear_combination (B x (lift q.1)) * htwice

omit hB hF h in
theorem form_relation {q : W} {c : ZMod 2} (hl : ∀ p ∈ l, β p.1 q = p.2 * c) :
    β (l.map fun p => p.2 • p.1).sum q = (l.map Prod.snd).sum * c := by
  induction l with
  | nil => rw [map_nil, map_nil, sum_nil, sum_nil, map_zero, zero_mul, LinearMap.zero_apply]
  | cons p l ih =>
    rw [map_cons, map_cons, sum_cons, sum_cons, LinearMap.map_add₂,
      LinearMap.map_smul₂, hl p mem_cons_self,
      ih fun r hr => hl r (mem_cons_of_mem p hr), smul_eq_mul, add_mul, ← mul_assoc,
      scalar_mul_self]

theorem ResidueForm.foldl_along_eq {U : Submodule (ZMod 2) W}
    (hl : BorderedBasis β l U) (hseparating : ∀ q, (∀ p ∈ l, β p.1 q = 0) → lift q = 0) {x : V}
    {b : W} (hb : lift b = x + F x) : l.foldl (fun y p => along B (lift p.1) y) x = F x := by
  set sum := added B lift l x with hsum
  have hform : ∀ p ∈ l, β p.1 (sum.1 + b) = p.2 * sum.2 := by
    intro p hp
    rw [map_add, hsum, form_added hB hF h hl.bordered x hp, ← hsum,
      h.form_of_residue hF hb.symm, form_comm hB (lift p.1) x, add_assoc, add_self,
      add_zero]
  -- The bits are an odd relation, so what is added has an even number of them.
  have heven : sum.2 = 0 := by
    have hrelation := form_relation hform
    rw [hl.relation, hl.odd, one_mul, map_zero, LinearMap.zero_apply] at hrelation
    exact hrelation.symm
  have hlift : lift (sum.1 + b) = 0 := by
    refine hseparating _ fun p hp => ?_
    rw [hform p hp, heven, mul_zero]
  rw [map_add, ← sub_eq_add, sub_eq_zero] at hlift
  rw [foldl_along, ← hsum, hlift, hb, ← add_assoc, add_self, zero_add]

end Residue

end Transvection

end QdkEc
