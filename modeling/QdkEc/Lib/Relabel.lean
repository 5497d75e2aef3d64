import QdkEc.Lib.Conjugation
import Mathlib.GroupTheory.GroupAction.MultipleTransitivity

/-!
# Relabeling and embedding of qubits

This module moves bit sets, operators and frames along maps of the qubits.  A
frame on the first `k` qubits acts on any `k` distinct qubits by its embedding.
-/

namespace QdkEc

open PhasedPauli Bits List

namespace Bits

/-- Move every position along a map. -/
def remap (g : ℕ → ℕ) (b : Bits) : Bits :=
  fromIndices (b.support.map g)

theorem index_remap (g : ℕ → ℕ) (b : Bits) (j : ℕ) :
    (remap g b).index j = true ↔ ∃ i, b.index i = true ∧ g i = j := by
  simp [remap]

@[simp]
theorem remap_unit (g : ℕ → ℕ) (i : ℕ) : remap g (unit i) = unit (g i) := by
  apply ext_index
  intro j
  rw [Bool.eq_iff_iff, index_remap]
  simp

variable {b : Bits}

theorem index_remap_apply {g : ℕ → ℕ} {i : ℕ} (hg : ∀ j, b.index j = true → g j = g i → j = i) :
    (remap g b).index (g i) = b.index i := by
  rw [Bool.eq_iff_iff, index_remap]
  constructor
  · rintro ⟨j, hj, hji⟩
    rwa [← hg j hj hji]
  · exact fun hi => ⟨i, hi, rfl⟩

@[simp]
theorem remap_zero (g : ℕ → ℕ) : remap g 0 = 0 := by
  simp [remap, fromIndices]

/-- An injective map moves an absent position to an absent position. -/
theorem remap_unit_add {g : ℕ → ℕ} {i : ℕ} (hg : ∀ j, b.index j = true → g j ≠ g i)
    (h : b.index i = false) : remap g (unit i + b) = unit (g i) + remap g b := by
  have hmem : ∀ k, (remap g (unit i + b)).index k = true ↔ g i = k ∨ (remap g b).index k =
    true := by
    intro k
    rw [index_remap, index_remap]
    constructor
    · rintro ⟨j, hj, rfl⟩
      by_cases hij : i = j
      · exact Or.inl (by rw [hij])
      · exact Or.inr ⟨j, by simpa [hij] using hj, rfl⟩
    · rintro (rfl | ⟨j, hj, rfl⟩)
      · exact ⟨i, by simp [h], rfl⟩
      · have hij : i ≠ j := by
          rintro rfl
          simp [h] at hj
        exact ⟨j, by simpa [hij] using hj, rfl⟩
  have hgi : (remap g b).index (g i) = false := by
    cases hc : (remap g b).index (g i) with
    | false => rfl
    | true =>
      obtain ⟨j, hj, hji⟩ := (index_remap g b (g i)).mp hc
      exact absurd hji (hg j hj)
  apply ext_index
  intro k
  rw [Bool.eq_iff_iff, hmem k]
  by_cases hk : g i = k
  · subst hk
    simp [hgi]
  · simp [hk]

theorem index_remap_getD {s : List ℕ} (hs : s.Nodup) (hb : b.Below s.length) (j : ℕ) :
    (remap (fun e => s.getD e 0) b).index j = (decide (j ∈ s) && b.index (s.idxOf j)) := by
  rw [Bool.eq_iff_iff, index_remap, Bool.and_eq_true, decide_eq_true_iff]
  constructor
  · rintro ⟨e, he, rfl⟩
    have hlt := hb.lt_of_index he
    rw [getD_eq_getElem _ _ hlt, List.Nodup.idxOf_getElem hs]
    exact ⟨getElem_mem hlt, he⟩
  · rintro ⟨hj, hb'⟩
    have hlt := idxOf_lt_length_of_mem hj
    exact ⟨s.idxOf j, hb', by rw [getD_eq_getElem _ _ hlt, getElem_idxOf]⟩

theorem remap_congr {g h : ℕ → ℕ} (hgh : ∀ i, b.index i = true → g i = h i) :
    remap g b = remap h b := by
  unfold remap
  congr 1
  apply map_congr_left
  intro i hi
  exact hgh i (mem_support.mp hi)

theorem remap_remap (g h : ℕ → ℕ) (b : Bits) : (b.remap h).remap g = b.remap fun i => g (h i) := by
  refine ext_index fun j => Bool.eq_iff_iff.mpr ?_
  rw [index_remap, index_remap]
  constructor
  · rintro ⟨_, hk, rfl⟩
    obtain ⟨i, hi, rfl⟩ := (index_remap h b _).mp hk
    exact ⟨i, hi, rfl⟩
  · rintro ⟨i, hi, rfl⟩
    exact ⟨h i, (index_remap h b _).mpr ⟨i, hi, rfl⟩, rfl⟩

theorem remap_id (b : Bits) : (b.remap fun i => i) = b := by
  refine ext_index fun j => Bool.eq_iff_iff.mpr ?_
  rw [index_remap]
  simp

end Bits

variable {p : PhasedPauli}

namespace PhasedPauli

/-- Move an operator along a map of the qubits. -/
def remap (g : ℕ → ℕ) (p : PhasedPauli) : PhasedPauli where
  phase := p.phase
  xBits := p.xBits.remap g
  zBits := p.zBits.remap g

theorem remap_congr {n : ℕ} {g h : ℕ → ℕ} (hp : p.Below n) (hgh : ∀ i, i < n → g i = h i) :
    p.remap g = p.remap h := by
  ext1
  · rfl
  · exact Bits.remap_congr fun i hi => hgh i (hp.1.lt_of_index hi)
  · exact Bits.remap_congr fun i hi => hgh i (hp.2.lt_of_index hi)

/-- The operator acts on the listed qubits only. -/
def ActsOn (s : List ℕ) (p : PhasedPauli) : Prop :=
  ∀ q, p.xBits.index q = true ∨ p.zBits.index q = true → q ∈ s

theorem remap_remap (g h : ℕ → ℕ) (p : PhasedPauli) :
    (p.remap h).remap g = p.remap fun i => g (h i) := by
  ext1
  · rfl
  · exact Bits.remap_remap g h p.xBits
  · exact Bits.remap_remap g h p.zBits

theorem ActsOn.remap_congr {s : List ℕ} {g h : ℕ → ℕ} (hp : p.ActsOn s) (hgh : ∀ i ∈ s, g i = h i) :
    p.remap g = p.remap h := by
  ext1
  · rfl
  · exact Bits.remap_congr fun i hi => hgh i (hp i (Or.inl hi))
  · exact Bits.remap_congr fun i hi => hgh i (hp i (Or.inr hi))

theorem actsOn_one (s : List ℕ) : ActsOn s 1 := by
  intro q hq
  simp at hq

theorem ActsOn.mul {s : List ℕ} {p q : PhasedPauli} (hp : p.ActsOn s) (hq : q.ActsOn s) :
    (p * q).ActsOn s := by
  intro i hi
  by_contra hnot
  have hp' : ¬ (p.xBits.index i = true ∨ p.zBits.index i = true) := fun h => hnot (hp i h)
  have hq' : ¬ (q.xBits.index i = true ∨ q.zBits.index i = true) := fun h => hnot (hq i h)
  simp only [not_or, Bool.not_eq_true] at hp' hq'
  simp [hp', hq'] at hi

theorem ActsOn.below_remap {s : List ℕ} (hp : p.ActsOn s) {g : ℕ → ℕ} {n : ℕ}
    (hg : ∀ i ∈ s, g i < n) : (p.remap g).Below n := by
  constructor <;>
  · rw [below_iff]
    intro i hi
    rw [← Bool.not_eq_true]
    intro hbit
    obtain ⟨q, hq, rfl⟩ := (index_remap g _ i).mp hbit
    have hlt := hg q (hp q (by tauto))
    omega

theorem remap_id (p : PhasedPauli) : (p.remap fun i => i) = p := by
  ext1
  · rfl
  · exact Bits.remap_id p.xBits
  · exact Bits.remap_id p.zBits

theorem Below.remap_add {m : ℕ} (hp : p.Below m) (n : ℕ) : (p.remap (· + n)).Below (n + m) := by
  have hbits : ∀ b : Bits, b.Below m → (b.remap (· + n)).Below (n + m) := by
    intro b hb
    rw [below_iff]
    intro j hj
    rw [← Bool.not_eq_true, index_remap]
    rintro ⟨i, hi, rfl⟩
    have hlt := hb.lt_of_index hi
    omega
  exact ⟨hbits _ hp.1, hbits _ hp.2⟩

end PhasedPauli

namespace GeneratorFrame

/-- The frame that moves every generator along an injective map extends to the moved operator. -/
theorem lift_relabel_identity {σ : ℕ → ℕ} (hσ : Function.Injective σ) (p : PhasedPauli) :
    (identity.relabel σ).lift p = p.remap σ := by
  have hvalid := valid_identity.relabel hσ
  have hx : ∀ b, orderedProd (identity.relabel σ).x b = xProduct (b.remap σ) := by
    intro b
    induction b using unit_induction with
    | zero => simp [xProduct_zero]
    | unit_add i b habsent ih =>
      have hne : ∀ j, b.index j = true → σ j ≠ σ i := by
        intro j hj hji
        rw [hσ hji, habsent] at hj
        contradiction
      rw [hvalid.orderedProd_x_add, ih, orderedProd_unit, remap_unit_add hne habsent,
        xProduct_add]
      rfl
  have hz : ∀ b, orderedProd (identity.relabel σ).z b = zProduct (b.remap σ) := by
    intro b
    induction b using unit_induction with
    | zero => simp [zProduct_zero]
    | unit_add i b habsent ih =>
      have hne : ∀ j, b.index j = true → σ j ≠ σ i := by
        intro j hj hji
        rw [hσ hji, habsent] at hj
        contradiction
      rw [hvalid.orderedProd_z_add, ih, orderedProd_unit, remap_unit_add hne habsent,
        zProduct_add]
      rfl
  rw [lift, hx, hz, eq_iPow_mul_xProduct_mul_zProduct (p.remap σ)]
  rfl

theorem relabel_comp_relabel (σ τ : ℕ → ℕ) :
    (identity.relabel σ).comp (identity.relabel τ) = identity.relabel fun i => σ (τ i) := by
  apply GeneratorFrame.ext
  · funext i
    simp [relabel, comp, identity]
  · funext i
    simp [relabel, comp, identity]

theorem lift_relabel_symm (σ : Equiv.Perm ℕ) (p : PhasedPauli) :
    (identity.relabel σ.symm).lift ((identity.relabel σ).lift p) = p := by
  rw [← (valid_identity.relabel σ.symm.injective).lift_comp (valid_identity.relabel σ.injective),
    relabel_comp_relabel]
  simp only [Equiv.symm_apply_apply]
  exact lift_identity p

theorem exists_perm_of_nodup {s : List ℕ} (hs : s.Nodup) :
    ∃ σ : Equiv.Perm ℕ, ∀ e (he : e < s.length), σ e = s[e] := by
  have htrans := Equiv.Perm.isMultiplyPretransitive ℕ s.length
  rw [MulAction.isMultiplyPretransitive_iff] at htrans
  have hinj : Function.Injective fun e : Fin s.length => s[e] := by
    intro e e' h
    exact Fin.ext ((List.Nodup.getElem_inj_iff hs).mp h)
  obtain ⟨σ, hσ⟩ := htrans ⟨Fin.val, Fin.val_injective⟩ ⟨fun e : Fin s.length => s[e], hinj⟩
  refine ⟨σ, ?_⟩
  intro e he
  exact congrArg (fun y : Fin s.length ↪ ℕ => y ⟨e, he⟩) hσ

theorem exists_perm_of_leftInverse {s : List ℕ} {g h : ℕ → ℕ} (hg : ∀ q ∈ s, h (g q) = q) :
    ∃ σ : Equiv.Perm ℕ, ∀ q ∈ s, σ q = g q := by
  have hinj : ∀ a ∈ s.dedup, ∀ b ∈ s.dedup, g a = g b → a = b := by
    intro a ha b hb hab
    rw [← hg a (mem_dedup.mp ha), hab, hg b (mem_dedup.mp hb)]
  obtain ⟨σ, hσ⟩ := exists_perm_of_nodup (nodup_dedup s)
  obtain ⟨τ, hτ⟩ := exists_perm_of_nodup ((nodup_dedup s).map_on hinj)
  refine ⟨σ.symm.trans τ, fun q hq => ?_⟩
  obtain ⟨e, he, rfl⟩ := mem_iff_getElem.mp (mem_dedup.mpr hq)
  rw [Equiv.trans_apply, ← hσ e he, Equiv.symm_apply_apply, hτ e (by simpa using he), hσ e he,
    getElem_map]

/-- The frame that acts on the qubits of a list as `g` acts on the first qubits. -/
def onSupport (s : List ℕ) (g : GeneratorFrame) : GeneratorFrame where
  x j := if j ∈ s then (g.x (s.idxOf j)).remap fun e => s.getD e 0 else X j
  z j := if j ∈ s then (g.z (s.idxOf j)).remap fun e => s.getD e 0 else Z j

section OnSupport

variable {s : List ℕ} {g : GeneratorFrame}

theorem onSupport_of_not_mem {j : ℕ} (hj : j ∉ s) :
    (onSupport s g).x j = X j ∧ (onSupport s g).z j = Z j := by
  simp [onSupport, hj]

/-- An embedded frame is the frame conjugated by a permutation of the qubits. -/
theorem onSupport_eq_comp (hg : g.Valid) (hfix : g.FixesFrom s.length) {σ : Equiv.Perm ℕ}
    (hσ : ∀ e (he : e < s.length), σ e = s[e]) : onSupport s g =
      ((identity.relabel σ).comp g).comp (identity.relabel σ.symm) := by
  have hget : ∀ e, e < s.length → s.getD e 0 = σ e := by
    intro e he
    rw [hσ e he, getD_eq_getElem _ _ he]
  have hin : ∀ j, j ∈ s → σ.symm j = s.idxOf j ∧ s.idxOf j < s.length := by
    intro j hj
    have hlt : s.idxOf j < s.length := idxOf_lt_length_of_mem hj
    refine ⟨?_, hlt⟩
    rw [Equiv.symm_apply_eq, hσ _ hlt, getElem_idxOf]
  have hout : ∀ j, j ∉ s → s.length ≤ σ.symm j := by
    intro j hj
    by_contra hlt
    have hmem := getElem_mem (Nat.not_le.mp hlt)
    rw [← hσ _ (Nat.not_le.mp hlt), Equiv.apply_symm_apply] at hmem
    exact hj hmem
  have hbelow : ∀ p : PhasedPauli, p.Below s.length →
      (identity.relabel σ).lift p = p.remap fun e => s.getD e 0 := by
    intro p hp
    rw [lift_relabel_identity σ.injective]
    exact (remap_congr hp hget).symm
  apply GeneratorFrame.ext
  · funext j
    have hx : ((((identity.relabel σ).comp g).comp (identity.relabel σ.symm)).x j) =
        (identity.relabel σ).lift (g.x (σ.symm j)) := by
      simp [comp, relabel, identity]
    rw [hx]
    by_cases hj : j ∈ s
    · obtain ⟨he, hlt⟩ := hin j hj
      have hgx : (g.x (s.idxOf j)).Below s.length := by
        rw [← lift_X, hg.below_lift_iff hfix]
        exact below_X.mpr hlt
      rw [he, hbelow _ hgx]
      simp [onSupport, hj]
    · rw [(hfix _ (hout j hj)).1]
      simp [onSupport, hj, relabel, identity]
  · funext j
    have hz : ((((identity.relabel σ).comp g).comp (identity.relabel σ.symm)).z j) =
        (identity.relabel σ).lift (g.z (σ.symm j)) := by
      simp [comp, relabel, identity]
    rw [hz]
    by_cases hj : j ∈ s
    · obtain ⟨he, hlt⟩ := hin j hj
      have hgz : (g.z (s.idxOf j)).Below s.length := by
        rw [← lift_Z, hg.below_lift_iff hfix]
        exact below_Z.mpr hlt
      rw [he, hbelow _ hgz]
      simp [onSupport, hj]
    · rw [(hfix _ (hout j hj)).2]
      simp [onSupport, hj, relabel, identity]

theorem valid_onSupport (hs : s.Nodup) (hg : g.Valid) (hfix : g.FixesFrom s.length) :
    (onSupport s g).Valid := by
  obtain ⟨σ, hσ⟩ := exists_perm_of_nodup hs
  rw [onSupport_eq_comp hg hfix hσ]
  exact ((valid_identity.relabel σ.injective).comp hg).comp
    (valid_identity.relabel σ.symm.injective)

theorem lift_onSupport (hg : g.Valid) (hfix : g.FixesFrom s.length) {σ : Equiv.Perm ℕ}
    (hσ : ∀ e (he : e < s.length), σ e = s[e]) (p : PhasedPauli) : (onSupport s g).lift p =
      (identity.relabel σ).lift (g.lift ((identity.relabel σ.symm).lift p)) := by
  rw [onSupport_eq_comp hg hfix hσ, ((valid_identity.relabel σ.injective).comp hg).lift_comp
      (valid_identity.relabel σ.symm.injective),
    (valid_identity.relabel σ.injective).lift_comp hg]

theorem lift_onSupport_lift_onSupport {h : GeneratorFrame} (hs : s.Nodup) (hg : g.Valid)
    (hgfix : g.FixesFrom s.length) (hh : h.Valid) (hhfix : h.FixesFrom s.length)
    (hinv : ∀ p, g.lift (h.lift p) = p) (p : PhasedPauli) :
    (onSupport s g).lift ((onSupport s h).lift p) = p := by
  obtain ⟨σ, hσ⟩ := exists_perm_of_nodup hs
  rw [lift_onSupport hh hhfix hσ, lift_onSupport hg hgfix hσ, lift_relabel_symm, hinv]
  exact lift_relabel_symm σ.symm p

end OnSupport

/-- The frame that acts as `f` on the first `m` qubits and as `g` on the qubits after them. -/
def tensor (m : ℕ) (f g : GeneratorFrame) : GeneratorFrame where
  x i := if i < m then f.x i else (g.x (i - m)).remap (· + m)
  z i := if i < m then f.z i else (g.z (i - m)).remap (· + m)

section Tensor

variable {m : ℕ} {f g : GeneratorFrame}

theorem below_frame (hf : f.Valid) (hm : f.FixesFrom m) {i : ℕ} (hi : i < m) :
    (f.x i).Below m ∧ (f.z i).Below m := by
  have hx := (hf.below_lift_iff hm).mpr (below_X.mpr hi)
  have hz := (hf.below_lift_iff hm).mpr (below_Z.mpr hi)
  rw [lift_X] at hx
  rw [lift_Z] at hz
  exact ⟨hx, hz⟩

theorem anti_remap_add (hp : p.Below m) (q : PhasedPauli) : anti p (q.remap (· + m)) = false := by
  have hbits : ∀ a b : Bits, a.Below m → Bits.dot a (b.remap (· + m)) = false := by
    intro a b ha
    apply dot_eq_false_of_disjoint
    intro i hi
    have hlt := ha.lt_of_index hi
    cases hc : (b.remap (· + m)).index i with
    | false => rfl
    | true =>
      obtain ⟨j, _, hj⟩ := (index_remap _ _ _).mp hc
      omega
  rw [anti, PhasedPauli.remap, hbits _ _ hp.1, hbits _ _ hp.2]
  rfl

theorem remap_add_eq_lift (m : ℕ) (q : PhasedPauli) :
    q.remap (· + m) = (identity.relabel (· + m)).lift q :=
  (lift_relabel_identity (add_left_injective m) q).symm

theorem remap_add_generators {i : ℕ} (hi : m ≤ i) :
    (X (i - m)).remap (· + m) = X i ∧ (Z (i - m)).remap (· + m) = Z i := by
  rw [remap_add_eq_lift, remap_add_eq_lift, lift_X, lift_Z]
  refine ⟨?_, ?_⟩
  · change X (i - m + m) = X i
    rw [Nat.sub_add_cancel hi]
  · change Z (i - m + m) = Z i
    rw [Nat.sub_add_cancel hi]

theorem eq_of_eq_on_blocks {φ ψ : PhasedPauli →* PhasedPauli} (hφ : ∀ k, φ (iPow k) = iPow k)
    (hψ : ∀ k, ψ (iPow k) = iPow k)
    (h : ∀ p q : PhasedPauli, p.Below m → φ (p * q.remap (· + m)) = ψ (p * q.remap (· + m)))
    (p : PhasedPauli) : φ p = ψ p := by
  have hone : (1 : PhasedPauli).remap (· + m) = 1 := by
    rw [remap_add_eq_lift]
    exact (identity.relabel (· + m)).lift_iPow 0
  have hfirst : ∀ p : PhasedPauli, p.Below m → φ p = ψ p := by
    intro p hp
    have hp1 := h p 1 hp
    rwa [hone, mul_one] at hp1
  have hsecond : ∀ q : PhasedPauli, φ (q.remap (· + m)) = ψ (q.remap (· + m)) := by
    intro q
    have hq1 := h 1 q (below_one m)
    rwa [one_mul] at hq1
  refine eq_of_eq_on_generators hφ hψ ?_ ?_ p
  · intro i
    rcases Nat.lt_or_ge i m with hi | hi
    · exact hfirst _ (below_X.mpr hi)
    · rw [← (remap_add_generators hi).1]
      exact hsecond _
  · intro i
    rcases Nat.lt_or_ge i m with hi | hi
    · exact hfirst _ (below_Z.mpr hi)
    · rw [← (remap_add_generators hi).2]
      exact hsecond _

theorem Valid.tensor (hf : f.Valid) (hm : f.FixesFrom m) (hg : g.Valid) : (f.tensor m g).Valid := by
  have hshift := valid_identity.relabel (add_left_injective m)
  refine ⟨?_, ?_, ?_, ?_, ?_⟩
  · intro i
    by_cases hi : i < m
    · simpa [GeneratorFrame.tensor, hi] using hf.orderTwo_x i
    · simpa [GeneratorFrame.tensor, hi, remap_add_eq_lift] using
        hshift.orderTwo_lift (hg.orderTwo_x (i - m))
  · intro i
    by_cases hi : i < m
    · simpa [GeneratorFrame.tensor, hi] using hf.orderTwo_z i
    · simpa [GeneratorFrame.tensor, hi, remap_add_eq_lift] using
        hshift.orderTwo_lift (hg.orderTwo_z (i - m))
  · intro i j
    by_cases hi : i < m <;> by_cases hj : j < m
    · simpa [GeneratorFrame.tensor, hi, hj] using hf.anti_x_z i j
    · have hne : i ≠ j := by omega
      simp [GeneratorFrame.tensor, hi, hj, anti_remap_add (below_frame hf hm hi).1, hne]
    · have hne : i ≠ j := by omega
      simp [GeneratorFrame.tensor, hi, hj, anti_comm _ (f.z j),
        anti_remap_add (below_frame hf hm hj).2, hne]
    · have heq : i - m = j - m ↔ i = j := by omega
      simp [GeneratorFrame.tensor, hi, hj, remap_add_eq_lift, hshift.anti_lift, hg.anti_x_z, heq]
  · intro i j
    by_cases hi : i < m <;> by_cases hj : j < m
    · simpa [GeneratorFrame.tensor, hi, hj] using hf.anti_x_x i j
    · simp [GeneratorFrame.tensor, hi, hj, anti_remap_add (below_frame hf hm hi).1]
    · simp [GeneratorFrame.tensor, hi, hj, anti_comm _ (f.x j),
        anti_remap_add (below_frame hf hm hj).1]
    · simp [GeneratorFrame.tensor, hi, hj, remap_add_eq_lift, hshift.anti_lift, hg.anti_x_x]
  · intro i j
    by_cases hi : i < m <;> by_cases hj : j < m
    · simpa [GeneratorFrame.tensor, hi, hj] using hf.anti_z_z i j
    · simp [GeneratorFrame.tensor, hi, hj, anti_remap_add (below_frame hf hm hi).2]
    · simp [GeneratorFrame.tensor, hi, hj, anti_comm _ (f.z j),
        anti_remap_add (below_frame hf hm hj).2]
    · simp [GeneratorFrame.tensor, hi, hj, remap_add_eq_lift, hshift.anti_lift, hg.anti_z_z]

theorem lift_tensor_of_below (hp : p.Below m) : (f.tensor m g).lift p = f.lift p := by
  have hprod : ∀ (h h' : ℕ → PhasedPauli) (b : Bits), b.Below m → (∀ i, i < m → h i = h' i) →
      orderedProd h b = orderedProd h' b := by
    intro h h' b hb hh
    unfold orderedProd
    congr 1
    apply map_congr_left
    intro i hi
    exact hh i (hb.lt_of_index (mem_support.mp hi))
  unfold lift
  rw [hprod _ f.x p.xBits hp.1 (fun i hi => by simp [GeneratorFrame.tensor, hi]),
    hprod _ f.z p.zBits hp.2 (fun i hi => by simp [GeneratorFrame.tensor, hi])]

theorem lift_tensor_remap (hf : f.Valid) (hm : f.FixesFrom m) (hg : g.Valid) (q : PhasedPauli) :
    (f.tensor m g).lift (q.remap (· + m)) = (g.lift q).remap (· + m) := by
  have hshift := valid_identity.relabel (add_left_injective m)
  have htensor := hf.tensor hm hg
  simp only [remap_add_eq_lift]
  refine eq_of_eq_on_generators (φ := htensor.liftHom.comp hshift.liftHom)
    (ψ := hshift.liftHom.comp hg.liftHom) ?_ ?_ ?_ ?_ q
  · intro k
    simp
  · intro k
    simp
  · intro i
    simp [relabel, identity, GeneratorFrame.tensor, remap_add_eq_lift]
  · intro i
    simp [relabel, identity, GeneratorFrame.tensor, remap_add_eq_lift]

end Tensor

end GeneratorFrame

end QdkEc
