import QdkEc.Lib.RowSpace

/-!
# Elimination column by column

This module develops the elimination of rows that takes one column after the
other.  Rows are reduced before a column when the columns before it are those of a
reduced echelon form.  A column without a one in the remaining rows is skipped;
otherwise a row with a one is exchanged with the first remaining row and added
into all other rows with a one in the column.  Neither step changes the row space.
-/

namespace QdkEc

open List

namespace Bits

/-- The columns before `column` are those of a reduced echelon form. -/
structure ReducedBefore (g : ℕ → Bits) (pivots : List ℕ) (column : ℕ) : Prop where
  sorted : pivots.Pairwise (· < ·)
  lt : ∀ p ∈ pivots, p < column
  leading : ∀ i (hi : i < pivots.length) j, j < pivots[i] → (g i).index j = false
  pivot : ∀ i j (hj : j < pivots.length), (g i).index pivots[j] = decide (i = j)
  cleared : ∀ i, pivots.length ≤ i → ∀ j, j < column → (g i).index j = false

/-- Exchange two rows and add the first one of them into every other row with a one in the
column. -/
def eliminateWith (g : ℕ → Bits) (pivot selected column : ℕ) :
    ℕ → Bits := fun i =>
  if i ≠ pivot ∧ (g (Equiv.swap pivot selected i)).index column = true then
    g (Equiv.swap pivot selected i) + g selected
  else g (Equiv.swap pivot selected i)

theorem reducedBefore_zero (g : ℕ → Bits) : ReducedBefore g [] 0 where
  sorted := List.Pairwise.nil
  lt := by simp
  leading := by simp
  pivot := by simp
  cleared _ _ j hj := by omega

theorem rowSpace_eliminateWith {n pivot selected : ℕ} (g : ℕ → Bits) (hpivot : pivot < n)
    (hselected : selected < n) (column : ℕ) :
    rowSpace n (eliminateWith g pivot selected column) = rowSpace n g := by
  have hswap : ∀ i, i < n → Equiv.swap pivot selected i < n := by
    intro i hi
    rw [Equiv.swap_apply_def]
    split_ifs <;> omega
  refine le_antisymm (rowSpace_le.mpr fun i hi => ?_) (rowSpace_le.mpr fun i hi => ?_)
  · unfold eliminateWith
    split_ifs
    · exact Submodule.add_mem _ (row_mem_rowSpace g (hswap i hi)) (row_mem_rowSpace g hselected)
    · exact row_mem_rowSpace g (hswap i hi)
  · have hrow := row_mem_rowSpace (eliminateWith g pivot selected column) (hswap i hi)
    have hself := row_mem_rowSpace (eliminateWith g pivot selected column) hpivot
    have hpivotRow : eliminateWith g pivot selected column pivot = g selected := by
      unfold eliminateWith
      rw [if_neg (by simp), Equiv.swap_apply_left]
    rw [hpivotRow] at hself
    unfold eliminateWith at hrow
    rw [Equiv.swap_apply_self] at hrow
    split_ifs at hrow
    · have hsum := Submodule.add_mem _ hrow hself
      rwa [add_assoc, add_self, add_zero] at hsum
    · exact hrow

namespace ReducedBefore

variable {g : ℕ → Bits} {pivots : List ℕ} {column : ℕ}

theorem skip (h : ReducedBefore g pivots column)
    (hcolumn : ∀ i, pivots.length ≤ i → (g i).index column = false) :
    ReducedBefore g pivots (column + 1) where
  sorted := h.sorted
  lt p hp := Nat.lt_succ_of_lt (h.lt p hp)
  leading := h.leading
  pivot := h.pivot
  cleared i hi j hj := by
    rcases Nat.lt_succ_iff_lt_or_eq.mp hj with hlt | rfl
    · exact h.cleared i hi j hlt
    · exact hcolumn i hi

/-- A column with a one in a remaining row becomes a pivot. -/
theorem eliminateWith (h : ReducedBefore g pivots column) {selected : ℕ}
    (hselected : pivots.length ≤ selected) (hbit : (g selected).index column = true) :
    ReducedBefore (eliminateWith g pivots.length selected column) (pivots ++ [column])
      (column + 1) := by
  have hbefore : ∀ i, i < pivots.length → Equiv.swap pivots.length selected i = i :=
    fun i hi => Equiv.swap_apply_of_ne_of_ne (by omega) (by omega)
  have hbehind : ∀ i, pivots.length ≤ i → pivots.length ≤ Equiv.swap pivots.length selected i := by
    intro i hi
    rw [Equiv.swap_apply_def]
    split_ifs <;> omega
  have hclear : ∀ j, j < column → (g selected).index j = false := h.cleared selected hselected
  -- Before the column, the rows are exchanged and nothing is added into them.
  have hread : ∀ i j, j < column → (Bits.eliminateWith g pivots.length selected column i).index j =
      (g (Equiv.swap pivots.length selected i)).index j := by
    intro i j hj
    unfold Bits.eliminateWith
    split_ifs
    · rw [index_add, hclear j hj, Bool.xor_false]
    · rfl
  have hcolumn : ∀ i, (Bits.eliminateWith g pivots.length selected column i).index column =
      decide (i = pivots.length) := by
    intro i
    unfold Bits.eliminateWith
    by_cases hi : i = pivots.length
    · rw [if_neg (fun hne => hne.1 hi), hi, Equiv.swap_apply_left, hbit, decide_eq_true rfl]
    · rw [decide_eq_false hi]
      split_ifs with hadd
      · rw [index_add, hadd.2, hbit]
        rfl
      · rw [← Bool.not_eq_true]
        exact fun hone => hadd ⟨hi, hone⟩
  refine ⟨?_, ?_, ?_, ?_, ?_⟩
  · rw [pairwise_append]
    exact ⟨h.sorted, pairwise_singleton _ _, fun p hp q hq => by
      rw [mem_singleton.mp hq]
      exact h.lt p hp⟩
  · intro p hp
    rcases mem_append.mp hp with hp | hp
    · exact Nat.lt_succ_of_lt (h.lt p hp)
    · rw [mem_singleton.mp hp]
      exact Nat.lt_succ_self column
  · intro i hi j hj
    rw [length_append, length_singleton] at hi
    rcases Nat.lt_succ_iff_lt_or_eq.mp hi with hlt | rfl
    · rw [getElem_append_left hlt] at hj
      rw [hread i j (hj.trans (h.lt _ (getElem_mem hlt))), hbefore i hlt]
      exact h.leading i hlt j hj
    · rw [getElem_concat_length rfl] at hj
      rw [hread _ j hj, Equiv.swap_apply_left]
      exact hclear j hj
  · intro i j hj
    rw [length_append, length_singleton] at hj
    rcases Nat.lt_succ_iff_lt_or_eq.mp hj with hlt | rfl
    · rw [getElem_append_left hlt, hread i _ (h.lt _ (getElem_mem hlt)), h.pivot _ j hlt]
      rcases Nat.lt_or_ge i pivots.length with hi | hi
      · rw [hbefore i hi]
      · have hle := hbehind i hi
        rw [decide_eq_false (by omega), decide_eq_false (by omega)]
    · rw [getElem_concat_length rfl]
      exact hcolumn i
  · intro i hi j hj
    rw [length_append, length_singleton] at hi
    rcases Nat.lt_succ_iff_lt_or_eq.mp hj with hlt | rfl
    · rw [hread i j hlt]
      exact h.cleared _ (hbehind i (by omega)) j hlt
    · rw [hcolumn, decide_eq_false (by omega)]

theorem reduced (h : ReducedBefore g pivots column) (hg : ∀ i, (g i).Below column) :
    Reduced g pivots where
  sorted := h.sorted
  leading := h.leading
  pivot := h.pivot
  zero i hi := by
    refine ext_index fun j => ?_
    rw [index_zero]
    rcases Nat.lt_or_ge j column with hj | hj
    · exact h.cleared i hi j hj
    · exact (hg i).index_eq_false hj

end ReducedBefore

end Bits

end QdkEc
