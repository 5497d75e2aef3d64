import QdkEc.Lib.GeneratorFrame
import QdkEc.Lib.RowSpace

/-!
# Groups generated by Pauli operators

This module studies the group that a family of operators generates.  Up to sign
it is the set of ordered products of the family.  An invertible transform of the
family into independent operators and scalars shows which scalars the group
contains.
-/

namespace QdkEc

open PhasedPauli Bits QuotientGroup

variable {p q : PhasedPauli}

namespace PhasedPauli

/-- The scalars one and minus one. -/
def signs : Subgroup PhasedPauli where
  carrier := {p | ∃ b, p = iPow (twist b)}
  one_mem' := ⟨false, iPow_zero.symm⟩
  mul_mem' := by
    rintro _ _ ⟨b, rfl⟩ ⟨c, rfl⟩
    exact ⟨b ^^ c, by rw [twist_xor, iPow_add]⟩
  inv_mem' := by
    rintro _ ⟨b, rfl⟩
    exact ⟨b, (orderTwo_iPow_twist b).inv_eq⟩

instance : signs.Normal where
  conj_mem := by
    rintro _ ⟨b, rfl⟩ q
    refine ⟨b, ?_⟩
    rw [← iPow_mul_comm, mul_assoc, mul_inv_cancel, mul_one]

/-- An operator up to sign. -/
abbrev UpToSign :=
  PhasedPauli ⧸ signs

theorem mk_eq_iff : (p : UpToSign) = q ↔ ∃ b, p = iPow (twist b) * q := by
  rw [eq_comm, QuotientGroup.eq]
  constructor
  · rintro ⟨b, hb⟩
    exact ⟨b, by rw [iPow_mul_comm, ← hb, mul_inv_cancel_left]⟩
  · rintro ⟨b, rfl⟩
    exact ⟨b, by rw [iPow_mul_comm, inv_mul_cancel_left]⟩

theorem mk_mul_comm (p q : PhasedPauli) : (p : UpToSign) * q = q * p := by
  rw [← mk_mul, ← mk_mul, mk_eq_iff]
  exact ⟨_, mul_eq_twist_mul p q⟩

theorem mul_self_eq (p : PhasedPauli) : ∃ b, p * p = iPow (twist b) := by
  have hsign : ∀ (k : ZMod 4) (b : Bool), ∃ c, k + k + twist b = twist c := by decide
  obtain ⟨c, hc⟩ := hsign p.phase (Bits.dot p.zBits p.xBits)
  refine ⟨c, PhasedPauli.ext hc ?_ ?_⟩
  · exact add_self p.xBits
  · exact add_self p.zBits

theorem mk_mul_self (p : PhasedPauli) : (p : UpToSign) * p = 1 := by
  obtain ⟨b, hb⟩ := mul_self_eq p
  rw [← mk_mul, hb, ← mk_one, mk_eq_iff]
  exact ⟨b, (mul_one _).symm⟩

section OrderedProducts

variable (g : ℕ → PhasedPauli)

theorem xBits_orderedProd (t : Bits) :
    (orderedProd g t).xBits = Bits.combine (fun i => (g i).xBits) t := by
  have hlist : ∀ l : List ℕ, ((l.map g).prod).xBits = (l.map fun i => (g i).xBits).sum := by
    intro l
    induction l with
    | nil => rfl
    | cons i l ih => rw [List.map_cons, List.prod_cons, mul_xBits, ih, List.map_cons, List.sum_cons]
  exact hlist t.support

theorem zBits_orderedProd (t : Bits) :
    (orderedProd g t).zBits = Bits.combine (fun i => (g i).zBits) t := by
  have hlist : ∀ l : List ℕ, ((l.map g).prod).zBits = (l.map fun i => (g i).zBits).sum := by
    intro l
    induction l with
    | nil => rfl
    | cons i l ih => rw [List.map_cons, List.prod_cons, mul_zBits, ih, List.map_cons, List.sum_cons]
  exact hlist t.support

theorem mk_orderedProd (t : Bits) : ((orderedProd g t : PhasedPauli) : UpToSign) =
      orderedProd (fun i => (g i : UpToSign)) t := by
  unfold orderedProd
  rw [← coe_mk' signs, map_list_prod, List.map_map]
  rfl

theorem mk_orderedProd_add (s t : Bits) : ((orderedProd g (s + t) : PhasedPauli) : UpToSign) =
      (orderedProd g s : PhasedPauli) * (orderedProd g t : PhasedPauli) := by
  rw [mk_orderedProd, mk_orderedProd, mk_orderedProd]
  exact orderedProd_add (fun i j => mk_mul_comm (g i) (g j)) (fun i => mk_mul_self (g i)) s t

end OrderedProducts

end PhasedPauli

namespace Bits

theorem orderedProd_combine {M : Type*} [Monoid M] {g : ℕ → M}
    (hcomm : ∀ i j, g i * g j = g j * g i) (hsq : ∀ i, g i * g i = 1) (t : ℕ → Bits) (c : Bits) :
    orderedProd g (combine t c) = orderedProd (fun j => orderedProd g (t j)) c := by
  have hproductComm : ∀ a b, orderedProd g a * orderedProd g b =
      orderedProd g b * orderedProd g a := by
    intro a b
    rw [← orderedProd_add hcomm hsq, ← orderedProd_add hcomm hsq, add_comm]
  induction c using unit_induction with
  | zero => simp
  | unit_add i c hi ih =>
    rw [combine_unit_add, orderedProd_add hcomm hsq, ih,
      orderedProd_unit_add_of_absent (fun i j => hproductComm (t i) (t j)) hi]

end Bits

namespace PhasedPauli

/-- The group that a family generates. -/
def generated (g : ℕ → PhasedPauli) : Subgroup PhasedPauli :=
  Subgroup.closure (Set.range g)

variable {e : PhasedPauli}

section Generated

variable (g : ℕ → PhasedPauli)

theorem generator_mem (i : ℕ) : g i ∈ generated g :=
  Subgroup.subset_closure ⟨i, rfl⟩

theorem orderedProd_mem (t : Bits) : orderedProd g t ∈ generated g :=
  orderedProd_induction (generated g).one_mem (fun _ _ => (generated g).mul_mem)
    fun i _ => generator_mem g i

variable {g} {m : ℕ} (hone : ∀ i, m ≤ i → g i = 1)

include hone

theorem exists_orderedProd (he : e ∈ generated g) :
    ∃ t : Bits, t.Below m ∧ ∃ b, e = iPow (twist b) * orderedProd g t := by
  suffices h : ∃ t : Bits, t.Below m ∧ (e : UpToSign) = (orderedProd g t : PhasedPauli) by
    obtain ⟨t, ht, heq⟩ := h
    exact ⟨t, ht, mk_eq_iff.mp heq⟩
  induction he using Subgroup.closure_induction with
  | mem e he =>
    obtain ⟨i, rfl⟩ := he
    rcases Nat.lt_or_ge i m with hi | hi
    · exact ⟨unit i, below_unit.mpr hi, by rw [orderedProd_unit]⟩
    · exact ⟨0, below_zero m, by rw [hone i hi, orderedProd_zero]⟩
  | one => exact ⟨0, below_zero m, by rw [orderedProd_zero]⟩
  | mul e f _ _ ihe ihf =>
    obtain ⟨s, hs, hes⟩ := ihe
    obtain ⟨t, ht, hft⟩ := ihf
    exact ⟨s + t, hs.add ht, by rw [mk_mul, hes, hft, mk_orderedProd_add]⟩
  | inv e _ ih =>
    obtain ⟨t, ht, het⟩ := ih
    refine ⟨t, ht, ?_⟩
    rw [mk_inv, inv_eq_of_mul_eq_one_right (mk_mul_self e), het]

theorem mem_generated_iff : e ∈ generated g ↔
      ∃ t : Bits, t.Below m ∧ ∃ k, iPow k ∈ generated g ∧ e = iPow k * orderedProd g t := by
  constructor
  · intro he
    obtain ⟨t, ht, b, rfl⟩ := exists_orderedProd hone he
    refine ⟨t, ht, twist b, ?_, rfl⟩
    exact ((generated g).mul_mem_cancel_right (orderedProd_mem g t)).mp he
  · rintro ⟨t, _, k, hk, rfl⟩
    exact (generated g).mul_mem hk (orderedProd_mem g t)

end Generated

theorem iPow_two_mem_of_anti {G : Subgroup PhasedPauli} (hp : p ∈ G)
    (hq : q ∈ G) (h : anti p q = true) : iPow 2 ∈ G := by
  rw [← G.mul_mem_cancel_right (G.mul_mem hq hp), ← mul_comm_of_anti h]
  exact G.mul_mem hp hq

theorem iPow_two_mem_of_not_orderTwo {G : Subgroup PhasedPauli} {p : PhasedPauli} (hp : p ∈ G)
    (h : ¬ OrderTwo p) : iPow 2 ∈ G := by
  obtain ⟨b, hb⟩ := mul_self_eq p
  cases b with
  | false => exact absurd (hb.trans iPow_zero) h
  | true =>
    rw [← twist_true, ← hb]
    exact G.mul_mem hp hp

variable {G H : Subgroup PhasedPauli}

theorem iPow_mem_of_le (hone : iPow 1 ∈ G → iPow 1 ∈ H)
    (htwo : iPow 2 ∈ G → iPow 2 ∈ H) {k : ZMod 4} (hk : iPow k ∈ G) : iPow k ∈ H := by
  have hcases : ∀ k : ZMod 4, k = 0 ∨ k = 1 ∨ k = 2 ∨ k = 3 := by decide
  have hinv : (iPow 3)⁻¹ = iPow 1 := by decide
  rcases hcases k with rfl | rfl | rfl | rfl
  · exact H.one_mem
  · exact hone hk
  · exact htwo hk
  · have hmem : iPow 1 ∈ G := by
      rw [← hinv]
      exact G.inv_mem hk
    have hmem' := H.inv_mem (hone hmem)
    rwa [← hinv, inv_inv] at hmem'

theorem eq_iPow_mul_of_bits (hx : p.xBits = q.xBits) (hz : p.zBits = q.zBits) :
    q = iPow (q.phase - p.phase) * p := by
  refine PhasedPauli.ext ?_ ?_ ?_
  · rw [mul_phase, iPow_phase, iPow_zBits, dot_zero_left, twist_false, add_zero, sub_add_cancel]
  · rw [mul_xBits, iPow_xBits, zero_add, hx]
  · rw [mul_zBits, iPow_zBits, zero_add, hz]

theorem eq_of_bits_of_scalars (hle : H ≤ G)
    (hbits : ∀ e ∈ G, ∃ e' ∈ H, e'.xBits = e.xBits ∧ e'.zBits = e.zBits)
    (hscalars : ∀ k, iPow k ∈ G → iPow k ∈ H) : H = G := by
  refine le_antisymm hle fun e he => ?_
  obtain ⟨e', he', hx, hz⟩ := hbits e he
  have heq := eq_iPow_mul_of_bits hx hz
  rw [heq]
  refine H.mul_mem (hscalars _ ?_) he'
  rw [← G.mul_mem_cancel_right (hle he'), ← heq]
  exact he

/-- The bits of the members of a group. -/
def bitVectors (G : Subgroup PhasedPauli) : Set (Bits × Bits) :=
  {v | ∃ e ∈ G, e.xBits = v.1 ∧ e.zBits = v.2}

theorem bitVectors_mono (hle : H ≤ G) : bitVectors H ⊆ bitVectors G := by
  rintro v ⟨e, he, hv⟩
  exact ⟨e, hle he, hv⟩

theorem exists_bits_of_mem_sup (he : e ∈ G ⊔ H) :
    ∃ g ∈ G, ∃ h ∈ H, e.xBits = g.xBits + h.xBits ∧ e.zBits = g.zBits + h.zBits := by
  rw [Subgroup.sup_eq_closure] at he
  induction he using Subgroup.closure_induction with
  | mem e he =>
    rcases he with he | he
    · exact ⟨e, he, 1, H.one_mem, (add_zero _).symm, (add_zero _).symm⟩
    · exact ⟨1, G.one_mem, e, he, (zero_add _).symm, (zero_add _).symm⟩
  | one => exact ⟨1, G.one_mem, 1, H.one_mem, (add_zero _).symm, (add_zero _).symm⟩
  | mul e f _ _ ihe ihf =>
    obtain ⟨g, hg, h, hh, hx, hz⟩ := ihe
    obtain ⟨g', hg', h', hh', hx', hz'⟩ := ihf
    refine ⟨g * g', G.mul_mem hg hg', h * h', H.mul_mem hh hh', ?_, ?_⟩
    · rw [mul_xBits, mul_xBits, mul_xBits, hx, hx', add_add_add_comm]
    · rw [mul_zBits, mul_zBits, mul_zBits, hz, hz', add_add_add_comm]
  | inv e _ ih =>
    obtain ⟨g, hg, h, hh, hx, hz⟩ := ih
    exact ⟨g, hg, h, hh, hx, hz⟩

theorem ncard_bitVectors_sup (hdisjoint : ∀ g ∈ G, ∀ h ∈ H, g.xBits = h.xBits → g.zBits = h.zBits →
      g.xBits = 0 ∧ g.zBits = 0) :
    (bitVectors (G ⊔ H)).ncard = (bitVectors G).ncard * (bitVectors H).ncard := by
  have himage : (fun p : (Bits × Bits) × (Bits × Bits) => p.1 + p.2) ''
      (bitVectors G ×ˢ bitVectors H) = bitVectors (G ⊔ H) := by
    refine Set.Subset.antisymm ?_ ?_
    · rintro _ ⟨⟨_, _⟩, ⟨⟨g, hg, hgx, hgz⟩, ⟨h, hh, hhx, hhz⟩⟩, rfl⟩
      refine ⟨g * h, (G ⊔ H).mul_mem (le_sup_left (a := G) hg) (le_sup_right (b := H) hh), ?_, ?_⟩
      · rw [mul_xBits, hgx, hhx]
        rfl
      · rw [mul_zBits, hgz, hhz]
        rfl
    · rintro _ ⟨e, he, hx, hz⟩
      obtain ⟨g, hg, h, hh, hx', hz'⟩ := exists_bits_of_mem_sup he
      refine ⟨((g.xBits, g.zBits), (h.xBits, h.zBits)), ⟨⟨g, hg, rfl, rfl⟩, ⟨h, hh, rfl, rfl⟩⟩, ?_⟩
      exact Prod.ext (hx'.symm.trans hx) (hz'.symm.trans hz)
  have hinjective : Set.InjOn (fun p : (Bits × Bits) × (Bits × Bits) => p.1 + p.2)
      (bitVectors G ×ˢ bitVectors H) := by
    rintro ⟨u, v⟩ ⟨⟨g, hg, hgx, hgz⟩, ⟨h, hh, hhx, hhz⟩⟩ ⟨u', v'⟩
      ⟨⟨g', hg', hgx', hgz'⟩, ⟨h', hh', hhx', hhz'⟩⟩ heq
    have hswap : ∀ {a b a' b' : Bits}, a + b = a' + b' → a + a' = b + b' := by
      intro a b a' b' hsum
      refine add_eq_zero_iff.mp ?_
      rw [add_add_add_comm]
      exact add_eq_zero_iff.mpr hsum
    have hx := hswap (congrArg Prod.fst heq)
    have hz := hswap (congrArg Prod.snd heq)
    -- The products of the members on either side have the same bits.
    obtain ⟨hgx0, hgz0⟩ := hdisjoint (g * g') (G.mul_mem hg hg') (h * h') (H.mul_mem hh hh')
      (by rw [mul_xBits, mul_xBits, hgx, hgx', hhx, hhx', hx])
      (by rw [mul_zBits, mul_zBits, hgz, hgz', hhz, hhz', hz])
    rw [mul_xBits, hgx, hgx'] at hgx0
    rw [mul_zBits, hgz, hgz'] at hgz0
    rw [hgx0] at hx
    rw [hgz0] at hz
    refine Prod.ext (Prod.ext ?_ ?_) (Prod.ext ?_ ?_)
    · exact add_eq_zero_iff.mp hgx0
    · exact add_eq_zero_iff.mp hgz0
    · exact add_eq_zero_iff.mp hx.symm
    · exact add_eq_zero_iff.mp hz.symm
  rw [← himage, hinjective.ncard_image, Set.ncard_prod]

/-- Ordered products along an invertible transform: the first `r` are independent as bit vectors and
the other ones are scalars. -/
structure StandardFamily (g : ℕ → PhasedPauli) (m r : ℕ) (t s : ℕ → Bits) : Prop where
  one : ∀ i, m ≤ i → g i = 1
  dual : Bits.DualRows m t s
  independent : ∀ c : Bits, c.Below m →
    Bits.combine (fun j => (Bits.orderedProd g (t j)).xBits) c = 0 →
      Bits.combine (fun j => (Bits.orderedProd g (t j)).zBits) c = 0 →
        ∀ j, j < r → c.index j = false
  scalar : ∀ j, r ≤ j → j < m →
    (Bits.orderedProd g (t j)).xBits = 0 ∧ (Bits.orderedProd g (t j)).zBits = 0

namespace StandardFamily

variable {g : ℕ → PhasedPauli} {m r : ℕ} {t s : ℕ → Bits}

section

variable (h : StandardFamily g m r t s)

include h

theorem exists_combine (he : e ∈ generated g) :
    ∃ c : Bits, c.Below m ∧ e.xBits = Bits.combine (fun j => (orderedProd g (t j)).xBits) c ∧
        e.zBits = Bits.combine (fun j => (orderedProd g (t j)).zBits) c := by
  obtain ⟨u, hu, k, _, rfl⟩ := (mem_generated_iff h.one).mp he
  obtain ⟨c, hc, rfl⟩ := h.dual.exists_combine hu
  refine ⟨c, hc, ?_, ?_⟩
  · rw [mul_xBits, iPow_xBits, zero_add, xBits_orderedProd, combine_combine]
    exact congrArg (Bits.combine · c) (funext fun j => (xBits_orderedProd g (t j)).symm)
  · rw [mul_zBits, iPow_zBits, zero_add, zBits_orderedProd, combine_combine]
    exact congrArg (Bits.combine · c) (funext fun j => (zBits_orderedProd g (t j)).symm)

theorem exists_combine_below (he : e ∈ generated g) :
    ∃ c : Bits, c.Below r ∧ e.xBits = Bits.combine (fun j => (orderedProd g (t j)).xBits) c ∧
        e.zBits = Bits.combine (fun j => (orderedProd g (t j)).zBits) c := by
  obtain ⟨c, hc, hx, hz⟩ := h.exists_combine he
  -- The positions from `r` on select scalars, which have no bits.
  have hlow : ∀ {b : ℕ → Bits}, (∀ j, r ≤ j → j < m → b j = 0) →
      Bits.combine b (Bits.low r c) = Bits.combine b c := by
    intro b hb
    have hsplit : Bits.combine b (Bits.low r c) + Bits.combine b c = 0 := by
      rw [← combine_add]
      refine combine_eq_zero _ fun j hj => ?_
      rw [index_add, index_low] at hj
      rcases Nat.lt_or_ge j r with hjr | hjr
      · rw [decide_eq_true hjr, Bool.true_and, Bool.xor_self] at hj
        cases hj
      · rw [decide_eq_false (by omega), Bool.false_and, Bool.false_xor] at hj
        exact hb j hjr (hc.lt_of_index hj)
    exact add_eq_zero_iff.mp hsplit
  refine ⟨Bits.low r c, below_low r c, ?_, ?_⟩
  · rw [hx, hlow fun j hj hjm => (h.scalar j hj hjm).1]
  · rw [hz, hlow fun j hj hjm => (h.scalar j hj hjm).2]

theorem combine_injective (hrm : r ≤ m) {c d : Bits} (hc : c.Below r)
    (hd : d.Below r) (hx : Bits.combine (fun j => (orderedProd g (t j)).xBits) c =
      Bits.combine (fun j => (orderedProd g (t j)).xBits) d)
    (hz : Bits.combine (fun j => (orderedProd g (t j)).zBits) c =
      Bits.combine (fun j => (orderedProd g (t j)).zBits) d) : c = d := by
  refine add_eq_zero_iff.mp (ext_index fun j => ?_)
  rcases Nat.lt_or_ge j r with hj | hj
  · rw [index_zero]
    refine h.independent (c + d) ((hc.add hd).mono hrm) ?_ ?_ j hj
    · rw [combine_add, hx, add_self]
    · rw [combine_add, hz, add_self]
  · rw [(hc.add hd).index_eq_false hj, index_zero]

theorem ncard_bitVectors (hrm : r ≤ m) :
    (bitVectors (generated g)).ncard = 2 ^ r := by
  let f : Bits → Bits × Bits := fun c =>
    (Bits.combine (fun j => (orderedProd g (t j)).xBits) c,
      Bits.combine (fun j => (orderedProd g (t j)).zBits) c)
  have himage : f '' {c : Bits | c.Below r} = bitVectors (generated g) := by
    refine Set.Subset.antisymm ?_ ?_
    · rintro _ ⟨c, _, rfl⟩
      refine ⟨orderedProd (fun j => orderedProd g (t j)) c, ?_, xBits_orderedProd _ c,
        zBits_orderedProd _ c⟩
      exact orderedProd_induction (generated g).one_mem (fun _ _ => (generated g).mul_mem)
        fun j _ => orderedProd_mem g (t j)
    · rintro ⟨x, z⟩ ⟨e, he, rfl, rfl⟩
      obtain ⟨c, hc, hx, hz⟩ := h.exists_combine_below he
      exact ⟨c, hc, Prod.ext hx.symm hz.symm⟩
  have hinjective : Set.InjOn f {c : Bits | c.Below r} := by
    intro c hc d hd heq
    obtain ⟨hx, hz⟩ := Prod.mk.inj heq
    exact h.combine_injective hrm hc hd hx hz
  rw [← himage, hinjective.ncard_image, ncard_below]

theorem exists_scalar {k : ZMod 4} (hk : iPow k ∈ generated g) :
    ∃ c : Bits, c.Below m ∧ (∀ j, c.index j = true → r ≤ j) ∧
      ∃ b, iPow k = iPow (twist b) * orderedProd (fun j => orderedProd g (t j)) c := by
  obtain ⟨u, hu, b, hub⟩ := exists_orderedProd h.one hk
  obtain ⟨c, hc, rfl⟩ := h.dual.exists_combine hu
  have hmk : ((iPow k : PhasedPauli) : UpToSign) =
      (orderedProd (fun j => orderedProd g (t j)) c : PhasedPauli) := by
    rw [mk_eq_iff.mpr ⟨b, hub⟩, mk_orderedProd, mk_orderedProd,
      orderedProd_combine (fun i j => mk_mul_comm (g i) (g j)) fun i => mk_mul_self (g i)]
    congr 1
    funext j
    exact (mk_orderedProd g (t j)).symm
  obtain ⟨b', hb'⟩ := mk_eq_iff.mp hmk
  refine ⟨c, hc, fun j hj => ?_, b', hb'⟩
  by_contra hlt
  refine absurd (h.independent c hc ?_ ?_ j (by omega)) (by rw [hj]; decide)
  · have hx := congrArg xBits hb'
    rw [mul_xBits, iPow_xBits, iPow_xBits, zero_add, xBits_orderedProd] at hx
    exact hx.symm
  · have hz := congrArg zBits hb'
    rw [mul_zBits, iPow_zBits, iPow_zBits, zero_add, zBits_orderedProd] at hz
    exact hz.symm

theorem eq_iPow {j : ℕ} (hj : r ≤ j) (hjm : j < m) :
    orderedProd g (t j) = iPow (orderedProd g (t j)).phase :=
  PhasedPauli.ext rfl (h.scalar j hj hjm).1 (h.scalar j hj hjm).2

theorem iPow_one_mem_iff :
    iPow 1 ∈ generated g ↔ ∃ j, r ≤ j ∧ j < m ∧
      ((orderedProd g (t j)).phase = 1 ∨ (orderedProd g (t j)).phase = 3) := by
  constructor
  · intro hmem
    obtain ⟨c, hc, hlarge, b, hb⟩ := h.exists_scalar hmem
    by_contra hnone
    push Not at hnone
    have heven : ∃ b',
        orderedProd (fun j => orderedProd g (t j)) c = iPow (twist b') := by
      refine orderedProd_induction (motive := fun p => ∃ b', p = iPow (twist b'))
        ⟨false, iPow_zero.symm⟩ ?_ fun j hj => ?_
      · rintro _ _ ⟨b, rfl⟩ ⟨b', rfl⟩
        exact ⟨b ^^ b', by rw [twist_xor, iPow_add]⟩
      · have hphase := hnone j (hlarge j hj) (hc.lt_of_index hj)
        have hcases : ∀ k : ZMod 4, k ≠ 1 → k ≠ 3 → ∃ b', k = twist b' := by decide
        obtain ⟨b', hb'⟩ := hcases _ hphase.1 hphase.2
        exact ⟨b', by rw [h.eq_iPow (hlarge j hj) (hc.lt_of_index hj), hb']⟩
    obtain ⟨b', hb'⟩ := heven
    rw [hb', ← iPow_add] at hb
    have hodd : ∀ b b' : Bool, (1 : ZMod 4) ≠ twist b + twist b' := by decide
    exact hodd b b' (congrArg phase hb)
  · rintro ⟨j, hj, hjm, hphase⟩
    have hmem := orderedProd_mem g (t j)
    rw [h.eq_iPow hj hjm] at hmem
    rcases hphase with hphase | hphase
    · rwa [hphase] at hmem
    · rw [hphase] at hmem
      have hinv := (generated g).inv_mem hmem
      rwa [show (iPow 3)⁻¹ = iPow 1 by decide] at hinv

theorem exists_sign_family (i : ℕ) : ∃ c : Bits, c.Below m ∧
      ∃ b, g i = iPow (twist b) * orderedProd (fun j => orderedProd g (t j)) c := by
  rcases Nat.lt_or_ge i m with hi | hi
  · obtain ⟨c, hc, hci⟩ := h.dual.exists_combine (below_unit.mpr hi)
    refine ⟨c, hc, mk_eq_iff.mp ?_⟩
    rw [← orderedProd_unit g i, ← hci, mk_orderedProd, mk_orderedProd,
      orderedProd_combine (fun i j => mk_mul_comm (g i) (g j)) fun i => mk_mul_self (g i)]
    congr 1
    funext j
    exact (mk_orderedProd g (t j)).symm
  · exact ⟨0, below_zero m, false, by
      rw [h.one i hi, orderedProd_zero, twist_false, iPow_zero, one_mul]⟩

end

section Commuting

variable (h : StandardFamily g m r t s)
  (hcomm : ∀ i j, i < r → j < r →
    anti (Bits.orderedProd g (t i)) (Bits.orderedProd g (t j)) = false)
  (horder : ∀ j, j < r → OrderTwo (Bits.orderedProd g (t j)))
  (hscalar : ∀ j, r ≤ j → j < m → (Bits.orderedProd g (t j)).phase = 0)

include h hcomm horder hscalar

theorem mul_comm_and_mul_self : (∀ i j, g i * g j = g j * g i) ∧ ∀ i, g i * g i = 1 := by
  let f : ℕ → PhasedPauli := fun j => if j < r then orderedProd g (t j) else 1
  have hfcomm : ∀ i j, f i * f j = f j * f i := by
    intro i j
    by_cases hi : i < r
    · by_cases hj : j < r
      · simp only [f, hi, hj, if_true]
        exact mul_comm_of_not_anti (hcomm i j hi hj)
      · simp only [f, hj, if_false, one_mul, mul_one]
    · simp only [f, hi, if_false, one_mul, mul_one]
  have hfsq : ∀ i, f i * f i = 1 := by
    intro i
    by_cases hi : i < r
    · simp only [f, hi, if_true]
      exact horder i hi
    · simp only [f, hi, if_false, one_mul]
  have hfamily : ∀ i, ∃ c b, g i = iPow (twist b) * orderedProd f c := by
    intro i
    obtain ⟨c, hc, b, hb⟩ := h.exists_sign_family i
    refine ⟨c, b, hb.trans (congrArg (iPow (twist b) * ·) ?_)⟩
    unfold orderedProd
    refine congrArg List.prod (List.map_congr_left fun j hj => ?_)
    have hjm := hc.lt_of_index (mem_support.mp hj)
    by_cases hjr : j < r
    · simp only [f, hjr, if_true]
      rfl
    · simp only [f, hjr, if_false]
      have hone := h.eq_iPow (by omega) hjm
      rw [hscalar j (by omega) hjm, iPow_zero] at hone
      exact hone
  constructor
  · intro i j
    obtain ⟨c, b, hc⟩ := hfamily i
    obtain ⟨d, b', hd⟩ := hfamily j
    have hproducts : orderedProd f c * orderedProd f d =
        orderedProd f d * orderedProd f c := by
      rw [← orderedProd_add hfcomm hfsq, ← orderedProd_add hfcomm hfsq, add_comm]
    have hanti : anti (g i) (g j) = false := by
      rw [hc, hd, anti_mul_left, anti_iPow_left, Bool.false_xor, anti_mul_right, anti_iPow_right,
        Bool.false_xor]
      exact anti_eq_false_iff.mpr hproducts
    exact mul_comm_of_not_anti hanti
  · intro i
    obtain ⟨c, b, hc⟩ := hfamily i
    have hsquare : OrderTwo (orderedProd f c) := by
      unfold OrderTwo
      rw [← orderedProd_add hfcomm hfsq, add_self, orderedProd_zero]
    rw [hc]
    exact hsquare.sign_mul b

/-- Commuting Hermitian operators without relations generate no scalar but one. -/
theorem eq_zero_of_iPow_mem {k : ZMod 4} (hk : iPow k ∈ generated g) : k = 0 := by
  obtain ⟨hgcomm, hgsq⟩ := h.mul_comm_and_mul_self hcomm horder hscalar
  have hexact : ∀ e ∈ generated g, ∃ u : Bits, u.Below m ∧ e = orderedProd g u := by
    intro e he
    induction he using Subgroup.closure_induction with
    | mem e he =>
      obtain ⟨i, rfl⟩ := he
      rcases Nat.lt_or_ge i m with hi | hi
      · exact ⟨unit i, below_unit.mpr hi, (orderedProd_unit g i).symm⟩
      · exact ⟨0, below_zero m, by rw [h.one i hi, orderedProd_zero]⟩
    | one => exact ⟨0, below_zero m, (orderedProd_zero g).symm⟩
    | mul e f _ _ ihe ihf =>
      obtain ⟨u, hu, rfl⟩ := ihe
      obtain ⟨v, hv, rfl⟩ := ihf
      exact ⟨u + v, hu.add hv, (orderedProd_add hgcomm hgsq u v).symm⟩
    | inv e _ ih =>
      obtain ⟨u, hu, rfl⟩ := ih
      refine ⟨u, hu, inv_eq_of_mul_eq_one_right ?_⟩
      rw [← orderedProd_add hgcomm hgsq, add_self, orderedProd_zero]
  obtain ⟨u, hu, hku⟩ := hexact _ hk
  obtain ⟨c, hc, rfl⟩ := h.dual.exists_combine hu
  rw [orderedProd_combine hgcomm hgsq] at hku
  have hzero : ∀ j, j < r → c.index j = false := by
    refine h.independent c hc ?_ ?_
    · rw [← xBits_orderedProd, ← hku, iPow_xBits]
    · rw [← zBits_orderedProd, ← hku, iPow_zBits]
  have hone : orderedProd (fun j => orderedProd g (t j)) c = 1 := by
    refine orderedProd_induction (motive := fun p => p = 1) rfl ?_ fun j hj => ?_
    · rintro _ _ rfl rfl
      exact one_mul 1
    · have hjr : r ≤ j := by
        by_contra hlt
        rw [hzero j (by omega)] at hj
        cases hj
      rw [h.eq_iPow hjr (hc.lt_of_index hj), hscalar j hjr (hc.lt_of_index hj), iPow_zero]
  rw [hone] at hku
  exact congrArg phase hku

end Commuting

theorem iPow_two_mem_iff (h : StandardFamily g m r t s) : iPow 2 ∈ generated g ↔
      iPow 1 ∈ generated g ∨ (∃ j, r ≤ j ∧ j < m ∧ (orderedProd g (t j)).phase = 2) ∨
          (∃ i j, i < r ∧ j < r ∧ anti (orderedProd g (t i)) (orderedProd g (t j)) = true) ∨
              ∃ j, j < r ∧ ¬ OrderTwo (orderedProd g (t j)) := by
  constructor
  · intro hmem
    by_contra hnone
    push Not at hnone
    obtain ⟨hone, htwo, hcomm, horder⟩ := hnone
    have hphase : ∀ j, r ≤ j → j < m → (orderedProd g (t j)).phase = 0 := by
      intro j hj hjm
      have hodd : ¬ ((orderedProd g (t j)).phase = 1 ∨
          (orderedProd g (t j)).phase = 3) := fun hodd =>
        hone (h.iPow_one_mem_iff.mpr ⟨j, hj, hjm, hodd⟩)
      have hcases : ∀ k : ZMod 4, ¬ (k = 1 ∨ k = 3) → k ≠ 2 → k = 0 := by decide
      exact hcases _ hodd (htwo j hj hjm)
    have hzero := h.eq_zero_of_iPow_mem (fun i j hi hj => by
      simpa using hcomm i j hi hj) horder hphase hmem
    revert hzero
    decide
  · rintro (hone | ⟨j, hj, hjm, hphase⟩ | ⟨i, j, _, _, hanti⟩ | ⟨j, _, horder⟩)
    · have hsquare := (generated g).mul_mem hone hone
      rwa [← iPow_add] at hsquare
    · rw [← hphase, ← h.eq_iPow hj hjm]
      exact orderedProd_mem g (t j)
    · exact iPow_two_mem_of_anti (orderedProd_mem g _) (orderedProd_mem g _) hanti
    · exact iPow_two_mem_of_not_orderTwo (orderedProd_mem g _) horder

end StandardFamily

end PhasedPauli

end QdkEc
