import QdkEc.Lib.GraphRows

/-!
# Independent rows

Rows over two elements are independent when only the empty combination of them
is zero.  This module collects how independence is shown, by positions that read
off the coefficients, and how a combination of rows splits at an index.
-/

namespace QdkEc

namespace Bits

/-- Only the empty combination of the first `n` rows is zero. -/
def Independent (n : ℕ) (g : ℕ → Bits) : Prop :=
  ∀ t : Bits, t.Below n → combine g t = 0 → t = 0

section Independent

variable {n : ℕ} {g h : ℕ → Bits}

theorem Independent.congr (hg : Independent n g) (hgh : ∀ i, i < n → g i = h i) :
    Independent n h := by
  intro t ht hzero
  exact hg t ht ((combine_congr ht hgh).trans hzero)

theorem Independent.injOn (hg : Independent n g) : Set.InjOn (combine g) {t | t.Below n} := by
  intro s hs t ht heq
  have hsum : combine g (s + t) = 0 := by
    rw [combine_add, show combine g s = combine g t from heq, add_self]
  exact add_eq_zero_iff.mp (hg _ (Below.add hs ht) hsum)

theorem independent_of_index (key : ℕ → ℕ)
    (hkey : ∀ i j, i < n → j < n → (g i).index (key j) = decide (i = j)) : Independent n g := by
  intro t ht hzero
  refine ext_index fun j => ?_
  rcases Nat.lt_or_ge j n with hj | hj
  · have hrow : combine g t = combine (fun i => if i < n then g i else 0) t :=
      combine_congr ht fun i hi => by rw [if_pos hi]
    have hread : (combine g t).index (key j) = t.index j := by
      rw [hrow, index_combine (r := unit j) _ ?_ t, dot_unit_right]
      intro i
      split_ifs with hi
      · rw [hkey i j hi hj, index_unit]
        simp [eq_comm]
      · rw [index_zero, index_unit, decide_eq_false (by omega)]
    rw [← hread, hzero, index_zero, index_zero]
  · rw [ht.index_eq_false hj, index_zero]

theorem Reduced.independent {pivots : List ℕ} (h : Reduced g pivots) :
    Independent pivots.length g := by
  refine independent_of_index (fun j => pivots.getD j 0) fun i j _ hj => ?_
  rw [List.getD_eq_getElem _ _ hj]
  exact h.pivot i j hj

end Independent

section Split

variable (g h : ℕ → Bits)

theorem combine_add_rows (t : Bits) :
    combine (fun i => g i + h i) t = combine g t + combine h t := by
  induction t using unit_induction with
  | zero => simp
  | unit_add i t _ ih =>
    rw [combine_unit_add, combine_unit_add, combine_unit_add, ih]
    abel

theorem low_unit (n i : ℕ) : low n (unit i) = if i < n then unit i else 0 := by
  split_ifs with hi
  · exact low_eq_self (below_unit.mpr hi)
  · refine ext_index fun j => ?_
    rw [index_low, index_unit, index_zero]
    by_cases hj : j < n
    · rw [decide_eq_false (by omega : ¬ i = j), Bool.and_false]
    · rw [decide_eq_false hj, Bool.false_and]

theorem shiftDown_add (n : ℕ) (a b : Bits) : shiftDown n (a + b) = shiftDown n a + shiftDown n b :=
  ext_index fun j => by simp

theorem shiftDown_unit (n i : ℕ) : shiftDown n (unit i) = if i < n then 0 else unit (i - n) := by
  refine ext_index fun j => ?_
  rw [index_shiftDown, index_unit]
  split_ifs with hi
  · rw [index_zero, decide_eq_false (by omega)]
  · rw [index_unit]
    exact decide_eq_decide.mpr (by omega)

theorem combine_split (n : ℕ) (t : Bits) : combine (fun i => if i < n then g i else h (i - n)) t =
      combine g (low n t) + combine h (shiftDown n t) := by
  induction t using unit_induction with
  | zero =>
    rw [low_eq_self (below_zero _), show shiftDown n 0 = 0 from ext_index fun j => by simp]
    simp
  | unit_add i t _ ih =>
    rw [combine_unit_add, ih, low_add, shiftDown_add, combine_add, combine_add, low_unit,
      shiftDown_unit]
    split_ifs with hi
    · rw [combine_zero, zero_add, combine_unit]
      abel
    · rw [combine_zero, zero_add, combine_unit]
      abel

end Split

section Positions

variable {positions : List ℕ}

theorem index_combine_unit_getD (hnodup : positions.Nodup) {t : Bits}
    (ht : t.Below positions.length) {i : ℕ} (hi : i < positions.length) :
    (combine (fun k => unit (positions.getD k 0)) t).index positions[i] = t.index i := by
  have hrow : combine (fun k => unit (positions.getD k 0)) t =
      combine (fun k => if k < positions.length then unit (positions.getD k 0) else 0) t :=
    combine_congr ht fun k hk => by rw [if_pos hk]
  rw [hrow, index_combine (r := unit i) _ ?_ t, dot_unit_right]
  intro k
  split_ifs with hk
  · rw [index_unit, index_unit, List.getD_eq_getElem _ _ hk]
    refine decide_eq_decide.mpr ?_
    rw [List.Nodup.getElem_inj_iff hnodup, eq_comm]
  · rw [index_zero, index_unit, decide_eq_false (by omega)]

theorem index_combine_unit_getD_of_notMem {t : Bits} (ht : t.Below positions.length) {j : ℕ}
    (hj : j ∉ positions) : (combine (fun k => unit (positions.getD k 0)) t).index j = false := by
  refine index_combine_eq_false _ fun k hk => ?_
  have hlt := ht.lt_of_index hk
  rw [index_unit, List.getD_eq_getElem _ _ hlt, decide_eq_false]
  rintro rfl
  exact hj (List.getElem_mem hlt)

theorem combine_unit_coefficients (hnodup : positions.Nodup) {v : Bits}
    (hv : ∀ j, v.index j = true → j ∈ positions) :
    combine (fun k => unit (positions.getD k 0)) (Reduced.coefficients positions v) = v := by
  refine ext_index fun j => ?_
  by_cases hj : j ∈ positions
  · obtain ⟨i, hi, rfl⟩ := List.mem_iff_getElem.mp hj
    rw [index_combine_unit_getD hnodup (Reduced.below_coefficients v) hi,
      Reduced.index_coefficients hi]
  · rw [index_combine_unit_getD_of_notMem (Reduced.below_coefficients v) hj, eq_comm]
    by_contra hset
    exact hj (hv j (by simpa using hset))

end Positions

section LinearAlgebra

variable {n : ℕ} {g : ℕ → Bits}

/-- The entry at an index as a linear function. -/
def entry (i : ℕ) : Bits →ₗ[ZMod 2] ZMod 2 :=
  AddMonoidHom.toZModLinearMap 2
    { toFun b := if b.index i then 1 else 0
      map_zero' := by simp
      map_add' a b := by
        rw [index_add]
        cases a.index i <;> cases b.index i <;> decide }

theorem entry_apply (i : ℕ) (b : Bits) : entry i b = if b.index i then 1 else 0 :=
  rfl

/-- The combination of rows as a linear map of the coefficients. -/
def combineLinear (g : ℕ → Bits) : Bits →ₗ[ZMod 2] Bits :=
  AddMonoidHom.toZModLinearMap 2 (combineHom g)

theorem eq_of_entry {a b : Bits} (h : ∀ i, entry i a = entry i b) : a = b := by
  refine ext_index fun i => ?_
  have hi := h i
  rw [entry_apply, entry_apply] at hi
  cases ha : a.index i <;> cases hb : b.index i <;> simp_all

theorem entry_sum_units (c : Fin n → ZMod 2) (k : ℕ) :
    entry k (∑ j, c j • unit (j : ℕ)) = if hk : k < n then c ⟨k, hk⟩ else 0 := by
  rw [map_sum]
  split_ifs with hk
  · rw [Finset.sum_eq_single ⟨k, hk⟩]
    · rw [map_smul, entry_apply, index_unit, decide_eq_true rfl]
      exact mul_one _
    · intro j _ hjk
      rw [map_smul, entry_apply, index_unit, decide_eq_false fun h => hjk (Fin.ext h)]
      exact mul_zero _
    · simp
  · refine Finset.sum_eq_zero fun j _ => ?_
    rw [map_smul, entry_apply, index_unit, decide_eq_false (by omega)]
    exact mul_zero _

theorem combine_sum_units (g : ℕ → Bits) (c : Fin n → ZMod 2) :
    combine g (∑ j, c j • unit (j : ℕ)) = ∑ j : Fin n, c j • g j := by
  change combineLinear g _ = _
  rw [map_sum]
  refine Finset.sum_congr rfl fun j _ => ?_
  rw [map_smul]
  exact congrArg (c j • ·) (combine_unit g j)

theorem below_sum_units (c : Fin n → ZMod 2) : (∑ j, c j • unit (j : ℕ)).Below n := by
  rw [below_iff]
  intro k hk
  have hentry := entry_sum_units c k
  rw [dif_neg (by omega), entry_apply] at hentry
  by_contra hset
  rw [if_pos (by simpa using hset)] at hentry
  exact one_ne_zero hentry

theorem independent_iff_linearIndependent :
    Independent n g ↔ LinearIndependent (ZMod 2) fun i : Fin n => g i := by
  rw [Fintype.linearIndependent_iff]
  constructor
  · intro hg c hzero i
    have hsum := hg _ (below_sum_units c) ((combine_sum_units g c).trans hzero)
    have hentry := entry_sum_units c i
    rw [hsum, map_zero, dif_pos i.isLt] at hentry
    exact hentry.symm
  · intro h t ht hzero
    have hexpand : ∑ j : Fin n, entry j t • unit (j : ℕ) = t := by
      refine eq_of_entry fun k => ?_
      rw [entry_sum_units fun j : Fin n => entry j t]
      split_ifs with hk
      · rfl
      · rw [entry_apply, ht.index_eq_false (by omega)]
        rfl
    have hcoefficients := h (fun j => entry j t) (by rw [← combine_sum_units, hexpand, hzero])
    refine eq_of_entry fun k => ?_
    rw [map_zero]
    rcases Nat.lt_or_ge k n with hk | hk
    · exact hcoefficients ⟨k, hk⟩
    · rw [entry_apply, ht.index_eq_false hk]
      rfl

theorem Independent.linearIndependent (hg : Independent n g) :
    LinearIndependent (ZMod 2) fun i : Fin n => g i :=
  independent_iff_linearIndependent.mp hg

theorem rowSpace_eq_span (n : ℕ) (g : ℕ → Bits) :
    rowSpace n g = Submodule.span (ZMod 2) (Set.range fun i : Fin n => g i) := by
  refine le_antisymm (rowSpace_le.mpr ?_) (Submodule.span_le.mpr ?_)
  · intro i hi
    exact Submodule.subset_span ⟨⟨i, hi⟩, rfl⟩
  · rintro _ ⟨i, rfl⟩
    exact row_mem_rowSpace g i.isLt

end LinearAlgebra

end Bits

end QdkEc
