import QdkEc.Lib.PauliVector
import QdkEc.Lib.PauliSubgroup

/-!
# Operators placed on pivots

Commuting operators are *placed* on a list of pivot qubits when each of them is
`Z` on its own pivot times a product of `Z` on earlier pivots.  Placed operators
generate the group of the `Z` of their pivots, and a Pauli exponential places the
next operator.
-/

namespace QdkEc

open PhasedPauli Subgroup List

namespace PhasedPauli

/-- Each operator is `Z` on its own pivot times a product of `Z` on earlier pivots. -/
inductive Placed : List ℕ → List PhasedPauli → Prop
  | nil : Placed [] []
  | snoc {pivots : List ℕ} {operators : List PhasedPauli} {a : Bits} (p : ℕ) :
      Placed pivots operators →
      (∀ i, a.index i = true → i ∈ pivots) →
      Placed (pivots ++ [p]) (operators ++ [Z p * zProduct a])

def zGroup (qubits : List ℕ) : Subgroup PhasedPauli :=
  Subgroup.closure {r | ∃ p ∈ qubits, r = Z p}

theorem Z_mem_zGroup {qubits : List ℕ} {p : ℕ} (hp : p ∈ qubits) : Z p ∈ zGroup qubits :=
  subset_closure ⟨p, hp, rfl⟩

variable {a : Bits}

theorem zProduct_mem {G : Subgroup PhasedPauli} (h : ∀ i, a.index i = true → Z i ∈ G) :
    zProduct a ∈ G := by
  induction a using Bits.unit_induction with
  | zero => exact G.one_mem
  | unit_add i a hi ih =>
    have hunit : (Bits.unit i + a).index i = true := by simp [hi]
    rw [zProduct_add, zProduct_unit]
    refine G.mul_mem (h i hunit) (ih fun j hj => h j ?_)
    have hij : i ≠ j := by
      rintro rfl
      rw [hi] at hj
      contradiction
    simp [hij, hj]

variable {r : PhasedPauli}

theorem anti_zProduct (h : ∀ i, a.index i = true → r.xBits.index i = false) :
    anti (zProduct a) r = false := by
  have hdot : Bits.dot a r.xBits = false := Bits.dot_eq_false_of_disjoint h
  simp [anti, zProduct, hdot]

theorem orderTwo_zProduct (a : Bits) : OrderTwo (zProduct a) := by
  rw [orderTwo_iff_phase]
  simp [zProduct]

theorem OrderTwo.of_zProduct_mul (h : OrderTwo (zProduct a * r))
    (ha : anti (zProduct a) r = false) : OrderTwo r := by
  have hself : zProduct a * (zProduct a * r) = r := by
    rw [← mul_assoc, show zProduct a * zProduct a = 1 from orderTwo_zProduct a, one_mul]
  have hcomm : anti (zProduct a) (zProduct a * r) = false := by
    rw [anti_mul_right, anti_self, ha]
    rfl
  have htwo := (orderTwo_zProduct a).mul_of_not_anti h hcomm
  rwa [hself] at htwo

namespace Placed

variable {pivots : List ℕ} {operators : List PhasedPauli}

section

variable (h : Placed pivots operators)

include h

theorem length_eq : operators.length = pivots.length := by
  induction h with
  | nil => rfl
  | snoc p _ _ ih => simp [ih]

theorem closure_eq :
    Subgroup.closure {r | r ∈ operators} = zGroup pivots := by
  induction h with
  | nil => simp [zGroup]
  | @snoc pivots operators a p h ha ih =>
    have hold : zGroup pivots ≤ zGroup (pivots ++ [p]) := by
      refine closure_mono ?_
      rintro _ ⟨q, hq, rfl⟩
      exact ⟨q, mem_append_left _ hq, rfl⟩
    have hproduct : zProduct a ∈ zGroup pivots :=
      zProduct_mem fun i hi => Z_mem_zGroup (ha i hi)
    have hsub : zGroup pivots ≤
        Subgroup.closure {r | r ∈ operators ++ [Z p * zProduct a]} := by
      rw [← ih]
      exact closure_mono fun r hr => mem_append_left _ hr
    have hlast : Z p * zProduct a ∈
        Subgroup.closure {r | r ∈ operators ++ [Z p * zProduct a]} :=
      subset_closure (by simp)
    refine le_antisymm ((closure_le _).mpr ?_) ((closure_le _).mpr ?_)
    · intro r hr
      rcases mem_append.mp hr with hr | hr
      · refine hold ?_
        rw [← ih]
        exact subset_closure hr
      · rw [mem_singleton.mp hr]
        exact Subgroup.mul_mem _ (Z_mem_zGroup (by simp)) (hold hproduct)
    · rintro _ ⟨q, hq, rfl⟩
      rcases mem_append.mp hq with hq | hq
      · exact hsub (Z_mem_zGroup hq)
      · rw [mem_singleton.mp hq]
        have hquot := Subgroup.mul_mem _ hlast (Subgroup.inv_mem _ (hsub hproduct))
        rwa [mul_assoc, mul_inv_cancel, mul_one] at hquot

theorem index_xBits_eq_false
    (hr : ∀ g ∈ operators, anti g r = false) {p : ℕ} (hp : p ∈ pivots) :
    r.xBits.index p = false := by
  induction h generalizing p with
  | nil => simp at hp
  | @snoc pivots operators a q h ha ih =>
    have hold : ∀ p ∈ pivots, r.xBits.index p = false :=
      fun p hp => ih (fun g hg => hr g (mem_append_left _ hg)) hp
    rcases mem_append.mp hp with hp | hp
    · exact hold p hp
    · have hlast := hr _ (mem_append_right _ (mem_singleton_self _))
      rw [anti_mul_left, anti_Z_left, anti_zProduct fun i hi => hold i (ha i hi),
        Bool.xor_false] at hlast
      rw [mem_singleton.mp hp]
      exact hlast

theorem anti_eq_false
    (hr : ∀ p ∈ pivots, r.xBits.index p = false) {g : PhasedPauli} (hg : g ∈ operators) :
    anti g r = false := by
  induction h with
  | nil => simp at hg
  | @snoc pivots operators a q h ha ih =>
    have hold : ∀ p ∈ pivots, r.xBits.index p = false :=
      fun p hp => hr p (mem_append_left _ hp)
    rcases mem_append.mp hg with hg | hg
    · exact ih hold hg
    · rw [mem_singleton.mp hg, anti_mul_left, anti_Z_left,
        anti_zProduct fun i hi => hold i (ha i hi), Bool.xor_false]
      exact hr q (by simp)

theorem vector_zProduct_mem_span
    (ha : ∀ i, a.index i = true → i ∈ pivots) :
    (zProduct a).vector ∈ Submodule.span (ZMod 2) (vector '' {r | r ∈ operators}) := by
  refine vector_mem_span_iff.mpr ⟨0, ?_⟩
  rw [iPow_zero, one_mul, h.closure_eq]
  exact zProduct_mem fun i hi => Z_mem_zGroup (ha i hi)

end

end Placed

/-- The exponent that moves an operator with `X` on a qubit onto `Z` of that qubit. -/
def placingExponent (p : ℕ) (r : PhasedPauli) : PhasedPauli :=
  iPow 3 * (Z p * r)

theorem orderTwo_placingExponent {p : ℕ} (hr : OrderTwo r) (hx : r.xBits.index p = true) :
    OrderTwo (placingExponent p r) := by
  have hanti : anti (Z p) r = true := by rw [anti_Z_left, hx]
  have hquarter := OrderTwo.quarter_mul_of_anti (orderTwo_Z p) hr hanti
  have hsign := hquarter.sign_mul true
  rwa [← mul_assoc, ← iPow_add] at hsign

theorem pauliExp_placingExponent {p : ℕ} (hr : OrderTwo r)
    (hx : r.xBits.index p = true) (ha : anti (zProduct a) r = false) :
    pauliExp (placingExponent p r) (zProduct a * r) = Z p * zProduct a := by
  have hz : anti (Z p) (zProduct a) = false := by simp [anti, zProduct]
  have hanti : anti (placingExponent p r) (zProduct a * r) = true := by
    unfold placingExponent
    rw [anti_mul_left, anti_iPow_left, Bool.false_xor, anti_mul_left, anti_mul_right,
      anti_mul_right, hz, anti_self, anti_comm r, ha, anti_Z_left, hx]
    rfl
  rw [pauliExp_of_anti hanti]
  have hphase : iPow 1 * iPow 3 = 1 := by
    rw [← iPow_add]
    rfl
  calc
    iPow 1 * (iPow 3 * (Z p * r) * (zProduct a * r)) =
        iPow 1 * iPow 3 * (Z p * ((r * zProduct a) * r)) := by
      group
    _ = Z p * (zProduct a * (r * r)) := by
      rw [hphase, one_mul, ← mul_comm_of_not_anti ha, mul_assoc]
    _ = Z p * zProduct a := by rw [show r * r = 1 from hr, mul_one]

end PhasedPauli

end QdkEc
