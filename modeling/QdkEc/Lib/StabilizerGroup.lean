import QdkEc.Lib.Relabel
import QdkEc.Lib.RowSpace

/-!
# Stabilizer groups

This module treats the signed stabilizer group of a state: a group of commuting
operators without a nontrivial scalar that is maximal up to signs.  It states the
rule by which a measurement changes the group and shows that one Pauli
exponential, followed by a conditional Pauli, performs that rule.
-/

namespace QdkEc

open PhasedPauli Bits

/-- A group of commuting operators that contains every operator commuting with it up to a sign. -/
structure IsStabilizerGroup (S : Subgroup PhasedPauli) : Prop where
  commutes : ∀ p ∈ S, ∀ q ∈ S, anti p q = false
  scalar_eq_zero : ∀ k, iPow k ∈ S → k = 0
  maximal : ∀ p, OrderTwo p → (∀ q ∈ S, anti q p = false) → ∃ b, iPow (twist b) * p ∈ S

/-- The stabilizers after a measurement of `P` with a random outcome: those operators commuting
with `P` that were stabilizers before, up to a factor `(-1)^outcome P`. -/
def measured (S : Set PhasedPauli) (P : PhasedPauli) (outcome : Bool) : Set PhasedPauli :=
  {p | anti P p = false ∧ (p ∈ S ∨ iPow (twist outcome) * (P * p) ∈ S)}

section Measured

variable {S : Subgroup PhasedPauli} {P : PhasedPauli} {outcome : Bool}

theorem observable_mem_measured (hP : OrderTwo P) :
    iPow (twist outcome) * P ∈ measured S P outcome := by
  refine ⟨by simp, Or.inr ?_⟩
  have hsquare : iPow (twist outcome) * (P * (iPow (twist outcome) * P)) = 1 := by
    rw [mul_iPow_mul, ← mul_assoc, ← iPow_add, twist_add_self, show P * P = 1 from hP, mul_one,
      iPow_zero]
  rw [hsquare]
  exact S.one_mem

end Measured

section Determinism

variable {S : Subgroup PhasedPauli} (hS : IsStabilizerGroup S) {P : PhasedPauli}

include hS

theorem IsStabilizerGroup.sign_unique {b c : Bool} (hb : iPow (twist b) * P ∈ S)
    (hc : iPow (twist c) * P ∈ S) : b = c := by
  have hratio : iPow (twist b - twist c) * (iPow (twist c) * P) = iPow (twist b) * P := by
    rw [← mul_assoc, ← iPow_add, sub_add_cancel]
  have hmem : iPow (twist b - twist c) ∈ S := by
    rw [← S.mul_mem_cancel_right hc, hratio]
    exact hb
  exact twist_injective (sub_eq_zero.mp (hS.scalar_eq_zero _ hmem))

end Determinism

/-- The operator that a measurement of `P` makes of a stabilizer, with the help of an operator `N`
that anticommutes with `P`. -/
def collapse (P N : PhasedPauli) (flip : Bool) (p : PhasedPauli) : PhasedPauli :=
  if flip then conjugate N (pauliExp (iPow 3 * (P * N)) p) else pauliExp (iPow 3 * (P * N)) p

section Collapse

variable {P N : PhasedPauli} (hanti : anti N P = true)

include hanti

theorem orderTwo_collapse (hP : OrderTwo P) (hN : OrderTwo N) : OrderTwo (iPow 3 * (P * N)) := by
  calc
    iPow 3 * (P * N) * (iPow 3 * (P * N)) = iPow 3 * iPow 3 * (P * (N * P) * N) := by
      rw [mul_assoc, mul_iPow_mul, ← mul_assoc]
      group
    _ = iPow 3 * iPow 3 * iPow 2 * (P * P * (N * N)) := by
      rw [mul_comm_of_anti hanti, mul_iPow_mul, mul_assoc (iPow 2)]
      group
    _ = 1 := by
      rw [show P * P = 1 from hP, show N * N = 1 from hN, ← iPow_add, ← iPow_add]
      rfl

/-- The map that undoes the measurement update. -/
def uncollapse (P N : PhasedPauli) (flip : Bool) (p : PhasedPauli) : PhasedPauli :=
  pauliExp (iPow 2 * (iPow 3 * (P * N))) (if flip then conjugate N p else p)

theorem uncollapse_collapse (hP : OrderTwo P) (hN : OrderTwo N) (flip : Bool) (p : PhasedPauli) :
    uncollapse P N flip (collapse P N flip p) = p := by
  have hinv := pauliExp_neg_pauliExp (orderTwo_collapse hanti hP hN) p
  cases flip with
  | false => exact hinv
  | true => simpa [uncollapse, collapse, conjugate_conjugate] using hinv

theorem collapse_surjective (hP : OrderTwo P) (hN : OrderTwo N) (flip : Bool) :
    Function.Surjective (collapse P N flip) := by
  intro q
  have hinv := pauliExp_neg_pauliExp (orderTwo_collapse hanti hP hN).neg
    (if flip then conjugate N q else q)
  rw [iPow_two_mul_iPow_two_mul] at hinv
  refine ⟨uncollapse P N flip q, ?_⟩
  cases flip with
  | false => exact hinv
  | true =>
    simp only [if_true] at hinv
    simp only [uncollapse, collapse, if_true, hinv, conjugate_conjugate]

omit hanti in
theorem uncollapse_eq (flip : Bool) (p : PhasedPauli) : uncollapse P N flip p =
      iPow (twist (flip && anti N p)) * (if anti P p ^^ anti N p then p * (P * N) else p) := by
  have hexp : ∀ q, pauliExp (iPow 2 * (iPow 3 * (P * N))) q =
      if anti P q ^^ anti N q then q * (P * N) else q := by
    intro q
    cases hq : anti P q ^^ anti N q with
    | false => exact pauliExp_of_not_anti (by simp [hq])
    | true =>
      have hcomm : q * (P * N) = iPow 2 * (P * N * q) :=
        mul_comm_of_anti (by rw [anti_comm, anti_mul_left, hq])
      rw [pauliExp_of_anti (by simp [hq]), if_pos rfl, hcomm, mul_assoc, mul_assoc (iPow 3),
        ← mul_assoc, ← mul_assoc, ← iPow_add, ← iPow_add]
      rfl
  cases flip with
  | false => simp [uncollapse, hexp]
  | true =>
    simp only [uncollapse, if_true, hexp, conjugate_apply, Bool.true_and]
    split_ifs with h h' h'
    · exact mul_assoc _ _ _
    · simp_all
    · simp_all
    · rfl

/-- The map that undoes the measurement update as a homomorphism. -/
def uncollapseHom (hP : OrderTwo P) (hN : OrderTwo N) (flip : Bool) : PhasedPauli →* PhasedPauli :=
  (pauliExpHom (iPow 2 * (iPow 3 * (P * N))) (orderTwo_collapse hanti hP hN).neg).comp
    (if flip then conjugate N else MonoidHom.id PhasedPauli)

theorem uncollapseHom_apply (hP : OrderTwo P) (hN : OrderTwo N) (flip : Bool) (p : PhasedPauli) :
    uncollapseHom hanti hP hN flip p = uncollapse P N flip p := by
  cases flip <;> rfl

theorem collapse_eq (flip : Bool) (p : PhasedPauli) : collapse P N flip p =
      iPow (twist (flip && anti P p)) * (if anti P p ^^ anti N p then P * (N * p) else p) := by
  have hexp : pauliExp (iPow 3 * (P * N)) p = if anti P p ^^ anti N p then P * (N * p) else p := by
    have hgenerator : anti (iPow 3 * (P * N)) p = (anti P p ^^ anti N p) := by simp
    rw [pauliExp, hgenerator]
    congr 1
    rw [mul_assoc, ← mul_assoc (iPow 1), ← iPow_add, mul_assoc]
    exact one_mul _
  have hcomm : anti N (if anti P p ^^ anti N p then P * (N * p) else p) = anti P p := by
    cases hPp : anti P p <;> cases hNp : anti N p <;> simp [hanti, hNp]
  cases flip with
  | false => simp [collapse, hexp]
  | true => rw [collapse, if_pos rfl, hexp, conjugate_apply, hcomm, Bool.true_and]

theorem collapse_mem_measured_iff {S : Subgroup PhasedPauli} (hS : IsStabilizerGroup S)
    (hP : OrderTwo P) {sign : Bool} (outcome : Bool) (hN : iPow (twist sign) * N ∈ S)
    (p : PhasedPauli) : collapse P N (outcome ^^ sign) p ∈ measured S P outcome ↔ p ∈ S := by
  have hcomm : ∀ q ∈ S, anti N q = false := by
    intro q hq
    simpa using hS.commutes _ hN q hq
  rw [collapse_eq hanti]
  cases hPp : anti P p with
  | false =>
    cases hNp : anti N p with
    | false =>
      have hnot : iPow (twist outcome) * (P * p) ∉ S := by
        intro hmem
        simpa [hanti, hNp] using hcomm _ hmem
      simp [measured, hPp, hnot]
    | true =>
      have hp : p ∉ S := by
        intro hmem
        simpa [hNp] using hcomm p hmem
      simp [measured, hPp, hp, anti_comm P N, hanti]
  | true =>
    cases hNp : anti N p with
    | false =>
      -- the only stabilizers that the update changes: they lose `N` and gain the observable
      have hnot : iPow (twist (outcome ^^ sign)) * (P * (N * p)) ∉ S := by
        intro hmem
        simpa [hanti, hNp] using hcomm _ hmem
      have hproduct : iPow (twist outcome) *
          (P * (iPow (twist (outcome ^^ sign)) * (P * (N * p)))) =
            iPow (twist sign) * N * p := by
        rw [mul_iPow_mul, ← mul_assoc P P, show P * P = 1 from hP, one_mul, ← mul_assoc,
          ← iPow_add, twist_xor, ← add_assoc, twist_add_self, zero_add, ← mul_assoc]
      have hP' : anti P (iPow (twist (outcome ^^ sign)) * (P * (N * p))) = false := by
        simp [hPp, anti_comm P N, hanti]
      simp only [Bool.and_true, Bool.xor_false, if_true]
      refine ⟨fun h => ?_, fun hp => ⟨hP', Or.inr ?_⟩⟩
      · have hmem := h.2.resolve_left hnot
        rwa [hproduct, SetLike.mem_coe, S.mul_mem_cancel_left hN] at hmem
      · rw [hproduct]
        exact S.mul_mem hN hp
    | true =>
      have hp : p ∉ S := by
        intro hmem
        simpa [hNp] using hcomm p hmem
      simp [measured, hPp, hp]

end Collapse

/-- The group generated by some operators with signs. -/
def signedGroup (n : ℕ) (g : ℕ → PhasedPauli) (sign : ℕ → Bool) : Subgroup PhasedPauli :=
  Subgroup.closure {p | ∃ i < n, p = iPow (twist (sign i)) * g i}

theorem signedGroup_congr {n : ℕ} {g g' : ℕ → PhasedPauli} {sign sign' : ℕ → Bool}
    (hg : ∀ i < n, g i = g' i) (hsign : ∀ i < n, sign i = sign' i) :
    signedGroup n g sign = signedGroup n g' sign' := by
  unfold signedGroup
  congr 1
  ext p
  exact exists_congr fun i => and_congr_right fun hi => by rw [hg i hi, hsign i hi]

/-- The operators that stabilize the computational basis state with the given bits. -/
def basisStabilizers (σ : Bits) : Subgroup PhasedPauli where
  carrier := {p | p.xBits = 0 ∧ p.phase = twist (Bits.dot p.zBits σ)}
  one_mem' := ⟨rfl, by simp⟩
  mul_mem' := by
    rintro p q ⟨hpx, hp⟩ ⟨hqx, hq⟩
    refine ⟨by simp [hpx, hqx], ?_⟩
    simp [hp, hq, hqx, dot_add_left, twist_xor]
  inv_mem' := by
    rintro p ⟨hpx, hp⟩
    refine ⟨hpx, ?_⟩
    simp [hp, hpx]

theorem exists_twist_of_add_self {k : ZMod 4} (h : k + k = 0) : ∃ b, k = twist b := by
  revert k
  decide

namespace GeneratorFrame

variable {f : GeneratorFrame}

/-- The stabilizers of a computational basis state moved by a frame. -/
def stabilizers (f : GeneratorFrame) (σ : Bits) : Set PhasedPauli :=
  {p | (f.lift p).xBits = 0 ∧ (f.lift p).phase = twist (Bits.dot (f.lift p).zBits σ)}

variable {p : PhasedPauli}

theorem mem_stabilizers_iff {σ : Bits} : p ∈ f.stabilizers σ ↔
      (f.lift p).xBits = 0 ∧ (f.lift p).phase = twist (Bits.dot (f.lift p).zBits σ) :=
  Iff.rfl

def Valid.stabilizerGroup (hf : f.Valid) (σ : Bits) : Subgroup PhasedPauli :=
  (basisStabilizers σ).comap hf.liftHom

@[simp]
theorem Valid.mem_stabilizerGroup (hf : f.Valid) {σ : Bits} :
    p ∈ hf.stabilizerGroup σ ↔ p ∈ f.stabilizers σ :=
  Iff.rfl

@[simp]
theorem Valid.coe_stabilizerGroup (hf : f.Valid) (σ : Bits) :
    (hf.stabilizerGroup σ : Set PhasedPauli) = f.stabilizers σ :=
  rfl

theorem Valid.isStabilizerGroup {n : ℕ} (hf : f.Valid) (hfix : f.FixesFrom n) (σ : Bits) :
    IsStabilizerGroup (hf.stabilizerGroup σ) := by
  refine ⟨?_, ?_, ?_⟩
  · rintro p ⟨hp, _⟩ q ⟨hq, _⟩
    rw [← hf.anti_lift, anti]
    change (f.lift p).xBits = 0 at hp
    change (f.lift q).xBits = 0 at hq
    simp [hp, hq]
  · rintro k ⟨_, hk⟩
    simpa using hk
  · intro p hp hcomm
    have hx : (f.lift p).xBits = 0 := by
      apply ext_index
      intro i
      obtain ⟨q, hq⟩ := hf.lift_surjective hfix (iPow (twist (σ.index i)) * Z i)
      have hmem : q ∈ hf.stabilizerGroup σ := by
        rw [hf.mem_stabilizerGroup, mem_stabilizers_iff, hq]
        simp
      have hanti := hcomm q hmem
      rw [← hf.anti_lift, hq] at hanti
      simpa using hanti
    have heven := orderTwo_iff_phase.mp (hf.orderTwo_lift hp)
    rw [hx, dot_zero_right, twist_false, add_zero] at heven
    obtain ⟨c, hc⟩ := exists_twist_of_add_self heven
    refine ⟨c ^^ Bits.dot (f.lift p).zBits σ, ?_⟩
    rw [hf.mem_stabilizerGroup, mem_stabilizers_iff, hf.lift_iPow_mul]
    refine ⟨by simp [hx], ?_⟩
    simp only [mul_phase, iPow_phase, iPow_zBits, dot_zero_left, twist_false, add_zero,
      mul_zBits, zero_add, hc, twist_xor]
    rw [add_right_comm, twist_add_self, zero_add]

/-- Operators that a frame makes products of `Z` generate stabilizers.  With the signs of the
basis state, they generate exactly the stabilizers whose preimage is a combination of theirs. -/
theorem Valid.coe_signedGroup_rows {m : ℕ} (hf : f.Valid) {g : ℕ → PhasedPauli} {u : ℕ → Bits}
    (hg : ∀ i < m, f.lift (g i) = zProduct (u i)) (σ : Bits) :
    (signedGroup m g (fun i => Bits.dot (u i) σ) : Set PhasedPauli) =
      {p | p ∈ f.stabilizers σ ∧ (f.lift p).zBits ∈ Bits.rowSpace m u} := by
  have hgenerator : ∀ i < m, iPow (twist (Bits.dot (u i) σ)) * g i ∈ f.stabilizers σ := by
    intro i hi
    rw [mem_stabilizers_iff, hf.lift_iPow_mul, hg i hi]
    simp [zProduct]
  ext p
  constructor
  · intro hp
    induction hp using Subgroup.closure_induction with
    | mem q hq =>
      obtain ⟨i, hi, rfl⟩ := hq
      refine ⟨hgenerator i hi, ?_⟩
      rw [hf.lift_iPow_mul, hg i hi]
      simpa [zProduct] using row_mem_rowSpace u hi
    | one =>
      refine ⟨(hf.stabilizerGroup σ).one_mem, ?_⟩
      rw [← iPow_zero, lift_iPow, iPow_zBits]
      exact Submodule.zero_mem _
    | mul q q' _ _ hq hq' =>
      refine ⟨(hf.stabilizerGroup σ).mul_mem hq.1 hq'.1, ?_⟩
      rw [hf.lift_mul, mul_zBits]
      exact Submodule.add_mem _ hq.2 hq'.2
    | inv q _ hq =>
      refine ⟨(hf.stabilizerGroup σ).inv_mem hq.1, ?_⟩
      have hinv := map_inv hf.liftHom q
      simp only [GeneratorFrame.Valid.liftHom_apply] at hinv
      exact hq.2
  · rintro ⟨hp, t, ht, hz⟩
    have hproduct : ∀ t : Bits, t.Below m → ∀ q, f.lift q =
        iPow (twist (Bits.dot (Bits.combine u t) σ)) * zProduct (Bits.combine u t) →
          q ∈ signedGroup m g fun i => Bits.dot (u i) σ := by
      intro t
      induction t using unit_induction with
      | zero =>
        intro _ q hq
        have hone : q = 1 := by
          apply hf.lift_injective
          rw [hq, combine_zero, dot_zero_left, twist_false, zProduct_zero, iPow_zero, one_mul]
          exact (map_one hf.liftHom).symm
        rw [hone]
        exact Subgroup.one_mem _
      | unit_add i t hi ih =>
        intro hbelow q hq
        have him : i < m := hbelow.lt_of_index (by simp [hi])
        have ht : t.Below m := by
          have hcancel := (below_unit.mpr him).add hbelow
          rwa [add_add_cancel_left] at hcancel
        have hlift : f.lift ((iPow (twist (Bits.dot (u i) σ)) * g i)⁻¹ * q) =
            iPow (twist (Bits.dot (Bits.combine u t) σ)) * zProduct (Bits.combine u t) := by
          have hmap := map_mul hf.liftHom (iPow (twist (Bits.dot (u i) σ)) * g i)⁻¹ q
          rw [map_inv] at hmap
          simp only [GeneratorFrame.Valid.liftHom_apply] at hmap
          rw [hmap, hq, inv_mul_eq_iff_eq_mul, hf.lift_iPow_mul, hg i him, combine_unit_add,
            dot_add_left, twist_xor, zProduct_add, iPow_add, mul_assoc, mul_assoc,
            mul_iPow_mul (twist (Bits.dot (Bits.combine u t) σ)) (zProduct (u i)),
            mul_iPow_mul (twist (Bits.dot (Bits.combine u t) σ)) (iPow _)]
        have hsign : iPow (twist (Bits.dot (u i) σ)) * g i ∈
            signedGroup m g fun i => Bits.dot (u i) σ :=
          Subgroup.subset_closure ⟨i, him, rfl⟩
        have hmem := Subgroup.mul_mem _ hsign (ih ht _ hlift)
        rwa [mul_inv_cancel_left] at hmem
    refine hproduct t ht p ?_
    rw [hz]
    ext1
    · simp [hp.2, zProduct]
    · simp [hp.1, zProduct]
    · simp [zProduct]

theorem Valid.coe_signedGroup {n : ℕ} (hf : f.Valid) (hfix : f.FixesFrom n) {g : ℕ → PhasedPauli}
    (hg : ∀ i < n, f.lift (g i) = Z i) (σ : Bits) :
    (signedGroup n g σ.index : Set PhasedPauli) = {p | p ∈ f.stabilizers σ ∧ p.Below n} := by
  have hrows := hf.coe_signedGroup_rows (u := Bits.unit)
    (fun i hi => (hg i hi).trans (zProduct_unit i).symm) σ
  simp only [dot_unit_left] at hrows
  rw [show σ.index = fun i => σ.index i from rfl, hrows]
  ext p
  refine and_congr_right fun hp => ?_
  rw [mem_rowSpace, ← hf.below_lift_iff hfix]
  constructor
  · rintro ⟨t, ht, hz⟩
    rw [combine_units] at hz
    refine ⟨?_, hz ▸ ht⟩
    rw [hp.1]
    exact below_zero n
  · exact fun hbelow => ⟨_, hbelow.2, combine_units _⟩

section Moves

variable {f' : GeneratorFrame} {n : ℕ} {σ : Bits}

variable {φ : PhasedPauli → PhasedPauli}

theorem Follows.surjective (h : f'.Follows f φ) (hf : f.Valid) (hfix : f.FixesFrom n) :
    Function.Surjective φ := by
  intro q
  obtain ⟨p, hp⟩ := hf.lift_surjective hfix (f'.lift q)
  refine ⟨p, h.valid.lift_injective ?_⟩
  rw [h.lift_map, hp]

theorem Follows.map_mem_stabilizers (h : f'.Follows f φ) (p : PhasedPauli) :
    φ p ∈ f'.stabilizers σ ↔ p ∈ f.stabilizers σ := by
  rw [mem_stabilizers_iff, mem_stabilizers_iff, h.lift_map]

theorem Follows.stabilizers_eq (h : f'.Follows f φ) (hf : f.Valid) (hfix : f.FixesFrom n) :
    f'.stabilizers σ = φ '' f.stabilizers σ := by
  ext q
  obtain ⟨p, rfl⟩ := h.surjective hf hfix q
  rw [h.map_mem_stabilizers]
  constructor
  · intro hp
    exact ⟨p, hp, rfl⟩
  · rintro ⟨p', hp', heq⟩
    rwa [← h.map_mem_stabilizers, heq, h.map_mem_stabilizers] at hp'

theorem Follows.fixesFrom (h : f'.Follows f φ)
    (hfix : f.FixesFrom n) (hφ : ∀ i, n ≤ i → φ (X i) = X i ∧ φ (Z i) = Z i) : f'.FixesFrom n := by
  intro i hi
  have hx := h.lift_map (X i)
  have hz := h.lift_map (Z i)
  rw [(hφ i hi).1, lift_X, lift_X, (hfix i hi).1] at hx
  rw [(hφ i hi).2, lift_Z, lift_Z, (hfix i hi).2] at hz
  exact ⟨hx, hz⟩

theorem Valid.stabilizers_add_xBits (hf : f.Valid) (σ : Bits) (P : PhasedPauli) :
    f.stabilizers (σ + (f.lift P).xBits) = conjugate P '' f.stabilizers σ := by
  have hmem : ∀ p, conjugate P p ∈ f.stabilizers σ ↔ p ∈ f.stabilizers (σ + (f.lift P).xBits) := by
    intro p
    rw [mem_stabilizers_iff, mem_stabilizers_iff, conjugate_apply, hf.lift_iPow_mul, ← hf.anti_lift]
    simp only [mul_xBits, mul_zBits, mul_phase, iPow_xBits, iPow_zBits, iPow_phase, zero_add,
      dot_zero_left, twist_false, add_zero, dot_add_right, twist_xor]
    refine and_congr_right fun hx => ?_
    have hanti : anti (f.lift P) (f.lift p) = Bits.dot (f.lift p).zBits (f.lift P).xBits := by
      rw [anti, hx, dot_zero_right, Bool.xor_false, dot_comm]
    rw [hanti, add_comm, eq_comm, ← sub_eq_iff_eq_add, eq_comm, sub_eq_add_neg, neg_twist]
  ext p
  constructor
  · intro hp
    rw [← hmem] at hp
    exact ⟨_, hp, conjugate_conjugate P p⟩
  · rintro ⟨q, hq, rfl⟩
    rwa [← hmem, conjugate_conjugate]

theorem Valid.exists_phase_eq_twist (hf : f.Valid) {P : PhasedPauli} (hP : OrderTwo P)
    (hx : (f.lift P).xBits = 0) : ∃ b, (f.lift P).phase = twist b := by
  have heven := orderTwo_iff_phase.mp (hf.orderTwo_lift hP)
  rw [hx, dot_zero_right, twist_false, add_zero] at heven
  exact exists_twist_of_add_self heven

theorem Valid.sign_mul_mem_stabilizers_iff (hf : f.Valid) {P : PhasedPauli} {c : Bool}
    (hphase : (f.lift P).phase = twist c) (b : Bool) : iPow (twist b) * P ∈ f.stabilizers σ ↔
      (f.lift P).xBits = 0 ∧ b = (c ^^ Bits.dot (f.lift P).zBits σ) := by
  rw [mem_stabilizers_iff, hf.lift_iPow_mul]
  simp only [mul_xBits, mul_zBits, mul_phase, iPow_xBits, iPow_zBits, iPow_phase, zero_add,
    dot_zero_left, twist_false, add_zero, hphase, ← twist_xor, twist_injective.eq_iff]
  refine and_congr_right fun _ => ?_
  cases b <;> cases c <;> simp

theorem Valid.exists_sign_mem_stabilizers_iff (hf : f.Valid) {P : PhasedPauli} (hP : OrderTwo P) :
    (∃ b, iPow (twist b) * P ∈ f.stabilizers σ) ↔ (f.lift P).xBits = 0 := by
  constructor
  · rintro ⟨b, hb⟩
    rw [mem_stabilizers_iff, hf.lift_iPow_mul] at hb
    simpa using hb.1
  · intro hx
    obtain ⟨c, hc⟩ := hf.exists_phase_eq_twist hP hx
    exact ⟨_, (hf.sign_mul_mem_stabilizers_iff hc _).mpr ⟨hx, rfl⟩⟩

theorem Valid.orderTwo_of_lift (hf : f.Valid) (hp : OrderTwo (f.lift p)) : OrderTwo p := by
  apply hf.lift_injective
  rw [hf.lift_mul, show f.lift p * f.lift p = 1 from hp]
  exact (f.lift_iPow 0).symm

theorem Valid.sign_mul_mem_of_lift (hf : f.Valid) {N : PhasedPauli} {z : Bits}
    (hN : f.lift N = zProduct z) : iPow (twist (Bits.dot z σ)) * N ∈ f.stabilizers σ := by
  rw [mem_stabilizers_iff, hf.lift_iPow_mul, hN]
  simp [zProduct]

section Exponential

variable {P N : PhasedPauli} (hanti : anti N P = true)

include hanti

theorem pauliExp_quarter_mul_left (hP : OrderTwo P) :
    pauliExp (iPow 3 * (P * N)) P = iPow 2 * N := by
  rw [pauliExp_of_anti (by simp [hanti])]
  calc
    iPow 1 * (iPow 3 * (P * N) * P) = iPow 1 * iPow 3 * (P * (N * P)) := by
      group
    _ = iPow 2 * (P * P * N) := by
      rw [mul_comm_of_anti hanti, mul_iPow_mul, ← iPow_add, ← mul_assoc P]
      exact one_mul _
    _ = iPow 2 * N := by rw [show P * P = 1 from hP, one_mul]

theorem Follows.xBits_lift_quarter (h : f'.Follows f (pauliExp (iPow 3 * (P * N))))
    (hP : OrderTwo P) : (f'.lift N).xBits = (f.lift P).xBits := by
  have hlift := h.lift_map P
  rw [pauliExp_quarter_mul_left hanti hP, h.valid.lift_iPow_mul] at hlift
  rw [← hlift]
  simp

theorem Valid.image_collapse_stabilizers (hf : f.Valid) (hfix : f.FixesFrom n) (hP : OrderTwo P)
    (hN2 : OrderTwo N) {sign : Bool} (hN : iPow (twist sign) * N ∈ f.stabilizers σ) (flip : Bool) :
    collapse P N flip '' f.stabilizers σ = measured (f.stabilizers σ) P (flip ^^ sign) := by
  have hmem := collapse_mem_measured_iff hanti (hf.isStabilizerGroup hfix σ) hP
    (flip ^^ sign) (hf.mem_stabilizerGroup.mpr hN)
  simp only [Bool.xor_assoc, Bool.xor_self, Bool.xor_false, hf.mem_stabilizerGroup,
    hf.coe_stabilizerGroup] at hmem
  ext q
  constructor
  · rintro ⟨p, hp, rfl⟩
    exact (hmem p).mpr hp
  · intro hq
    obtain ⟨p, rfl⟩ := collapse_surjective hanti hP hN2 flip q
    exact ⟨p, (hmem p).mp hq, rfl⟩

theorem Follows.stabilizers_measured (h : f'.Follows f (pauliExp (iPow 3 * (P * N)))) (hf : f.Valid)
    (hfix : f.FixesFrom n) (hP : OrderTwo P) (hN2 : OrderTwo N) {sign : Bool}
    (hN : iPow (twist sign) * N ∈ f.stabilizers σ) (flip : Bool) :
    f'.stabilizers (σ + if flip then (f'.lift N).xBits else 0) =
      measured (f.stabilizers σ) P (flip ^^ sign) := by
  rw [← hf.image_collapse_stabilizers hanti hfix hP hN2 hN flip]
  cases flip with
  | false =>
    rw [if_neg (by decide), add_zero]
    exact h.stabilizers_eq hf hfix
  | true =>
    rw [if_pos rfl, h.valid.stabilizers_add_xBits, h.stabilizers_eq hf hfix, Set.image_image]
    rfl

end Exponential

end Moves

end GeneratorFrame

end QdkEc
