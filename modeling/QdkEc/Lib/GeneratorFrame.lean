import QdkEc.Lib.PhasedPauli

/-!
# Generator frames

This module studies assignments of operators to the generators `X_i` and `Z_i`
of the phased Pauli group.  An assignment that satisfies the relations of the
generators extends to a homomorphism; when it fixes all but finitely many
generators the extension is an automorphism.
-/

namespace QdkEc

open PhasedPauli

namespace Bits

section OrderedProduct

variable {M : Type*} [Monoid M]

/-- The product of a family over a bit set, in increasing order. -/
def orderedProd (g : ℕ → M) (b : Bits) : M :=
  (b.support.map g).prod

@[simp]
theorem orderedProd_zero (g : ℕ → M) : orderedProd g 0 = 1 := by
  simp [orderedProd]

@[simp]
theorem orderedProd_unit (g : ℕ → M) (i : ℕ) : orderedProd g (unit i) = g i := by
  simp [orderedProd]

theorem map_orderedProd {N : Type*} [Monoid N] (φ : M →* N) (g : ℕ → M) (b : Bits) :
    φ (orderedProd g b) = orderedProd (fun i => φ (g i)) b := by
  rw [orderedProd, map_list_prod, List.map_map]
  rfl

theorem orderedProd_congr {n : ℕ} {g h : ℕ → M} {b : Bits} (hb : b.Below n)
    (hgh : ∀ i, i < n → g i = h i) : orderedProd g b = orderedProd h b := by
  unfold orderedProd
  congr 1
  exact List.map_congr_left fun i hi => hgh i (hb.lt_of_index (mem_support.mp hi))

theorem orderedProd_induction {motive : M → Prop} {g : ℕ → M} {b : Bits} (one : motive 1)
    (mul : ∀ p q, motive p → motive q → motive (p * q))
    (factor : ∀ i, b.index i = true → motive (g i)) : motive (orderedProd g b) := by
  have hlist : ∀ l : List ℕ, (∀ i ∈ l, motive (g i)) → motive (l.map g).prod := by
    intro l hl
    induction l with
    | nil => exact one
    | cons i l ih =>
      exact mul _ _ (hl i (by simp)) (ih fun j hj => hl j (by simp [hj]))
  exact hlist b.support fun i hi => factor i (mem_support.mp hi)

variable {g : ℕ → M}

theorem orderedProd_unit_add_of_absent (hcomm : ∀ i j, g i * g j = g j * g i) {i : ℕ} {b : Bits}
    (h : b.index i = false) : orderedProd g (unit i + b) = g i * orderedProd g b := by
  have hperm := (support_unit_add_perm h).map g
  have hpair : ((unit i + b).support.map g).Pairwise Commute := by
    rw [List.pairwise_map]
    exact List.pairwise_of_forall fun j k => hcomm j k
  unfold orderedProd
  rw [hperm.prod_eq' hpair, List.map_cons, List.prod_cons]

theorem orderedProd_unit_add (hcomm : ∀ i j, g i * g j = g j * g i) (hsq : ∀ i, g i * g i = 1)
    (i : ℕ) (b : Bits) : orderedProd g (unit i + b) = g i * orderedProd g b := by
  cases h : b.index i with
  | false => exact orderedProd_unit_add_of_absent hcomm h
  | true =>
    have habsent : (unit i + b).index i = false := by simp [h]
    have hb := orderedProd_unit_add_of_absent hcomm habsent
    rw [add_add_cancel_left] at hb
    rw [hb, ← mul_assoc, hsq, one_mul]

theorem orderedProd_add (hcomm : ∀ i j, g i * g j = g j * g i) (hsq : ∀ i, g i * g i = 1)
    (a b : Bits) : orderedProd g (a + b) = orderedProd g a * orderedProd g b := by
  induction a using unit_induction with
  | zero => simp
  | unit_add i a _ ih =>
    rw [add_assoc, orderedProd_unit_add hcomm hsq, ih, orderedProd_unit_add hcomm hsq, mul_assoc]

end OrderedProduct

end Bits

variable {p : PhasedPauli}

section ScalarHom

variable {F : Type*} [FunLike F PhasedPauli PhasedPauli] [MonoidHomClass F PhasedPauli PhasedPauli]
variable {φ ψ : F}

theorem anti_map (hφ : ∀ k, φ (iPow k) = iPow k) (p q : PhasedPauli) :
    anti (φ p) (φ q) = anti p q := by
  apply anti_eq_of_mul_eq
  rw [← map_mul, mul_eq_twist_mul, map_mul, map_mul, hφ]

theorem OrderTwo.map (h : OrderTwo p) : OrderTwo (φ p) := by
  unfold OrderTwo at *
  rw [← map_mul, h, map_one]

theorem eq_of_eq_on_generators (hφ : ∀ k, φ (iPow k) = iPow k) (hψ : ∀ k, ψ (iPow k) = iPow k)
    (hx : ∀ i, φ (X i) = ψ (X i)) (hz : ∀ i, φ (Z i) = ψ (Z i)) (p : PhasedPauli) : φ p = ψ p := by
  induction p using generator_induction with
  | scalar k => rw [hφ, hψ]
  | x i => exact hx i
  | z i => exact hz i
  | mul p q hp hq => rw [map_mul, map_mul, hp, hq]

theorem injective_of_map_iPow (hφ : ∀ k, φ (iPow k) = iPow k) : Function.Injective φ := by
  rw [injective_iff_map_eq_one]
  intro p hp
  have hscalar : p = iPow p.phase := by
    apply eq_iPow_of_commutes
    intro q
    rw [← anti_map hφ, hp, anti_one_left]
  rw [hscalar, hφ] at hp
  rw [hscalar, hp]

end ScalarHom

/-- Operators assigned to the generators `X_i` and `Z_i`. -/
@[ext]
structure GeneratorFrame where
  x : ℕ → PhasedPauli
  z : ℕ → PhasedPauli

namespace GeneratorFrame

/-- The frame satisfies the relations of the generators. -/
structure Valid (f : GeneratorFrame) : Prop where
  orderTwo_x : ∀ i, OrderTwo (f.x i)
  orderTwo_z : ∀ i, OrderTwo (f.z i)
  anti_x_z : ∀ i j, anti (f.x i) (f.z j) = decide (i = j)
  anti_x_x : ∀ i j, anti (f.x i) (f.x j) = false
  anti_z_z : ∀ i j, anti (f.z i) (f.z j) = false

/-- The frame moves the first `n` generators only. -/
def FixesFrom (n : ℕ) (f : GeneratorFrame) : Prop :=
  ∀ i, n ≤ i → f.x i = X i ∧ f.z i = Z i

/-- The frame that assigns every generator to itself. -/
def identity : GeneratorFrame where
  x := X
  z := Z

/-- The images of the generators under a map. -/
def ofMap (φ : PhasedPauli → PhasedPauli) : GeneratorFrame where
  x i := φ (X i)
  z i := φ (Z i)

/-- The extension of a frame to all operators. -/
def lift (f : GeneratorFrame) (p : PhasedPauli) : PhasedPauli :=
  iPow p.phase * Bits.orderedProd f.x p.xBits * Bits.orderedProd f.z p.zBits

@[simp]
theorem lift_iPow (f : GeneratorFrame) (k : ZMod 4) : f.lift (iPow k) = iPow k := by
  simp [lift]

@[simp]
theorem lift_X (f : GeneratorFrame) (i : ℕ) : f.lift (X i) = f.x i := by
  simp [lift]

@[simp]
theorem lift_Z (f : GeneratorFrame) (i : ℕ) : f.lift (Z i) = f.z i := by
  simp [lift]

variable {φ : PhasedPauli →* PhasedPauli}

theorem valid_ofMap (hφ : ∀ k, φ (iPow k) = iPow k) : (ofMap φ).Valid where
  orderTwo_x i := OrderTwo.map (φ := φ) (orderTwo_X i)
  orderTwo_z i := OrderTwo.map (φ := φ) (orderTwo_Z i)
  anti_x_z i j := by
    change anti (φ (X i)) (φ (Z j)) = _
    rw [anti_map hφ]
    simp
  anti_x_x i j := by
    change anti (φ (X i)) (φ (X j)) = _
    rw [anti_map hφ]
    simp
  anti_z_z i j := by
    change anti (φ (Z i)) (φ (Z j)) = _
    rw [anti_map hφ]
    simp

theorem valid_identity : identity.Valid :=
  valid_ofMap (φ := MonoidHom.id PhasedPauli) fun _ => rfl

variable {f g : GeneratorFrame} {n : ℕ}

theorem FixesFrom.mono {m : ℕ} (h : f.FixesFrom m) (hmn : m ≤ n) :
    f.FixesFrom n :=
  fun i hi => h i (le_trans hmn hi)

namespace Valid

variable {f : GeneratorFrame} (hf : f.Valid)

include hf

theorem x_mul_comm (i j : ℕ) : f.x i * f.x j = f.x j * f.x i :=
  mul_comm_of_not_anti (hf.anti_x_x i j)

theorem z_mul_comm (i j : ℕ) : f.z i * f.z j = f.z j * f.z i :=
  mul_comm_of_not_anti (hf.anti_z_z i j)

theorem orderedProd_x_add (a b : Bits) :
    Bits.orderedProd f.x (a + b) = Bits.orderedProd f.x a * Bits.orderedProd f.x b :=
  Bits.orderedProd_add hf.x_mul_comm hf.orderTwo_x a b

theorem orderedProd_z_add (a b : Bits) :
    Bits.orderedProd f.z (a + b) = Bits.orderedProd f.z a * Bits.orderedProd f.z b :=
  Bits.orderedProd_add hf.z_mul_comm hf.orderTwo_z a b

theorem anti_x_orderedProd_z (i : ℕ) (b : Bits) :
    anti (f.x i) (Bits.orderedProd f.z b) = b.index i := by
  induction b using Bits.unit_induction with
  | zero => simp
  | unit_add j b _ ih =>
    rw [hf.orderedProd_z_add, anti_mul_right, ih, Bits.orderedProd_unit, hf.anti_x_z]
    simp [eq_comm]

theorem anti_orderedProd (a b : Bits) :
    anti (Bits.orderedProd f.x a) (Bits.orderedProd f.z b) = Bits.dot a b := by
  induction a using Bits.unit_induction with
  | zero => simp
  | unit_add i a _ ih =>
    rw [hf.orderedProd_x_add, anti_mul_left, ih, Bits.orderedProd_unit, hf.anti_x_orderedProd_z,
      Bits.dot_add_left, Bits.dot_unit_left]

/-- A valid frame extends to a homomorphism. -/
theorem lift_mul (p q : PhasedPauli) : f.lift (p * q) = f.lift p * f.lift q := by
  have hswap :
      Bits.orderedProd f.z p.zBits * Bits.orderedProd f.x q.xBits =
        iPow (twist (Bits.dot p.zBits q.xBits)) *
          (Bits.orderedProd f.x q.xBits * Bits.orderedProd f.z p.zBits) := by
    rw [mul_eq_twist_mul, anti_comm, hf.anti_orderedProd, Bits.dot_comm]
  unfold lift
  rw [mul_phase, mul_xBits, mul_zBits, hf.orderedProd_x_add, hf.orderedProd_z_add, iPow_add,
    iPow_add]
  calc
    iPow p.phase * iPow q.phase * iPow (twist (Bits.dot p.zBits q.xBits)) *
          (Bits.orderedProd f.x p.xBits * Bits.orderedProd f.x q.xBits) *
        (Bits.orderedProd f.z p.zBits * Bits.orderedProd f.z q.zBits) =
      iPow p.phase * iPow q.phase *
        (iPow (twist (Bits.dot p.zBits q.xBits)) * Bits.orderedProd f.x p.xBits) *
          (Bits.orderedProd f.x q.xBits * Bits.orderedProd f.z p.zBits) *
            Bits.orderedProd f.z q.zBits := by
        group
    _ = iPow p.phase * iPow q.phase * Bits.orderedProd f.x p.xBits *
        (Bits.orderedProd f.z p.zBits * Bits.orderedProd f.x q.xBits) *
          Bits.orderedProd f.z q.zBits := by
        rw [hswap, iPow_mul_comm (twist _) (Bits.orderedProd f.x p.xBits)]
        group
    _ = iPow p.phase * (iPow q.phase *
        (Bits.orderedProd f.x p.xBits * Bits.orderedProd f.z p.zBits)) *
          (Bits.orderedProd f.x q.xBits * Bits.orderedProd f.z q.zBits) := by
        group
    _ = iPow p.phase * Bits.orderedProd f.x p.xBits * Bits.orderedProd f.z p.zBits *
        (iPow q.phase * Bits.orderedProd f.x q.xBits * Bits.orderedProd f.z q.zBits) := by
        rw [iPow_mul_comm q.phase (Bits.orderedProd f.x p.xBits * _)]
        group

/-- The extension of a valid frame as a homomorphism. -/
def liftHom : PhasedPauli →* PhasedPauli where
  toFun := f.lift
  map_one' := f.lift_iPow 0
  map_mul' := hf.lift_mul

@[simp]
theorem liftHom_apply (p : PhasedPauli) : hf.liftHom p = f.lift p :=
  rfl

theorem liftHom_iPow (k : ZMod 4) : hf.liftHom (iPow k) = iPow k :=
  f.lift_iPow k

theorem anti_lift (p q : PhasedPauli) : anti (f.lift p) (f.lift q) = anti p q :=
  anti_map (φ := hf.liftHom) f.lift_iPow p q

theorem lift_injective : Function.Injective f.lift :=
  injective_of_map_iPow (φ := hf.liftHom) f.lift_iPow

theorem lift_iPow_mul (k : ZMod 4) (p : PhasedPauli) : f.lift (iPow k * p) = iPow k * f.lift p := by
  rw [hf.lift_mul, lift_iPow]

theorem orderTwo_lift (hp : OrderTwo p) : OrderTwo (f.lift p) :=
  OrderTwo.map (φ := hf.liftHom) hp

theorem lift_unique (hφ : ∀ k, φ (iPow k) = iPow k)
    (hx : ∀ i, φ (X i) = f.x i) (hz : ∀ i, φ (Z i) = f.z i) (p : PhasedPauli) : φ p = f.lift p := by
  refine eq_of_eq_on_generators (ψ := hf.liftHom) hφ f.lift_iPow ?_ ?_ p
  · intro i
    simpa using hx i
  · intro i
    simpa using hz i

end Valid

theorem lift_identity (p : PhasedPauli) : identity.lift p = p :=
  (valid_identity.lift_unique (φ := MonoidHom.id PhasedPauli) (fun _ => rfl) (fun _ => rfl)
    (fun _ => rfl) p).symm

theorem lift_ofMap (hφ : ∀ k, φ (iPow k) = iPow k) (p : PhasedPauli) : (ofMap φ).lift p = φ p :=
  ((valid_ofMap hφ).lift_unique hφ (fun _ => rfl) (fun _ => rfl) p).symm

/-- The frame whose extension is the extension of `g` followed by that of `f`. -/
def comp (f g : GeneratorFrame) : GeneratorFrame where
  x i := f.lift (g.x i)
  z i := f.lift (g.z i)

theorem Valid.comp (hf : f.Valid) (hg : g.Valid) : (f.comp g).Valid where
  orderTwo_x i := hf.orderTwo_lift (hg.orderTwo_x i)
  orderTwo_z i := hf.orderTwo_lift (hg.orderTwo_z i)
  anti_x_z i j := (hf.anti_lift _ _).trans (hg.anti_x_z i j)
  anti_x_x i j := (hf.anti_lift _ _).trans (hg.anti_x_x i j)
  anti_z_z i j := (hf.anti_lift _ _).trans (hg.anti_z_z i j)

theorem Valid.lift_comp (hf : f.Valid) (hg : g.Valid) (p : PhasedPauli) :
    (f.comp g).lift p = f.lift (g.lift p) := by
  refine ((hf.comp hg).lift_unique (φ := hf.liftHom.comp hg.liftHom) ?_ ?_ ?_ p).symm
  · intro k
    simp
  · intro i
    simp [GeneratorFrame.comp]
  · intro i
    simp [GeneratorFrame.comp]

theorem FixesFrom.comp (hf : f.FixesFrom n) (hg : g.FixesFrom n) :
    (f.comp g).FixesFrom n := by
  intro i hi
  simp [GeneratorFrame.comp, (hg i hi).1, (hg i hi).2, (hf i hi).1, (hf i hi).2]

theorem Valid.below_lift_iff (hf : f.Valid) (hn : f.FixesFrom n) :
    Below n (f.lift p) ↔ Below n p := by
  rw [below_iff_commutes, below_iff_commutes]
  refine forall₂_congr fun i hi => ?_
  have hx : X i = f.lift (X i) := by rw [lift_X, (hn i hi).1]
  have hz : Z i = f.lift (Z i) := by rw [lift_Z, (hn i hi).2]
  rw [hx, hz, hf.anti_lift, hf.anti_lift, ← hx, ← hz]

theorem exists_below (p : PhasedPauli) : ∃ n, Below n p := by
  refine ⟨max p.xBits.mask p.zBits.mask, ?_, ?_⟩
  · exact lt_of_lt_of_le Nat.lt_two_pow_self (Nat.pow_le_pow_right (by omega) (le_max_left _ _))
  · exact lt_of_lt_of_le Nat.lt_two_pow_self (Nat.pow_le_pow_right (by omega) (le_max_right _ _))

theorem Valid.lift_surjective (hf : f.Valid) (hn : f.FixesFrom n) :
    Function.Surjective f.lift := by
  intro p
  obtain ⟨m, hm⟩ := exists_below p
  have hfix : f.FixesFrom (max n m) := hn.mono (le_max_left n m)
  have hmaps : Set.MapsTo f.lift {q | Below (max n m) q} {q | Below (max n m) q} :=
    fun q hq => (hf.below_lift_iff hfix).mpr hq
  have honto := ((finite_below (max n m)).injOn_iff_bijOn_of_mapsTo hmaps).mp
    hf.lift_injective.injOn
  obtain ⟨q, _, hq⟩ := honto.surjOn (hm.mono (le_max_right n m))
  exact ⟨q, hq⟩

theorem Valid.lift_bijective (hf : f.Valid) (hn : f.FixesFrom n) :
    Function.Bijective f.lift :=
  ⟨hf.lift_injective, hf.lift_surjective hn⟩

section Inverse

variable {n : ℕ} {f : GeneratorFrame} (hf : f.Valid) (hn : f.FixesFrom n)

/-- The inverse of the extension of a valid frame that fixes almost all generators. -/
noncomputable def Valid.inverseHom : PhasedPauli →* PhasedPauli :=
  (MulEquiv.ofBijective hf.liftHom (hf.lift_bijective hn)).symm.toMonoidHom

theorem Valid.lift_inverseHom (p : PhasedPauli) : f.lift (hf.inverseHom hn p) = p :=
  (MulEquiv.ofBijective hf.liftHom (hf.lift_bijective hn)).apply_symm_apply p

theorem Valid.inverseHom_lift (p : PhasedPauli) : hf.inverseHom hn (f.lift p) = p :=
  (MulEquiv.ofBijective hf.liftHom (hf.lift_bijective hn)).symm_apply_apply p

theorem Valid.inverseHom_iPow (k : ZMod 4) : hf.inverseHom hn (iPow k) = iPow k := by
  have h := hf.inverseHom_lift hn (iPow k)
  rwa [lift_iPow] at h

end Inverse

end GeneratorFrame

end QdkEc
