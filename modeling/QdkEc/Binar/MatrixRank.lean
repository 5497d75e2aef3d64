import QdkEc.Binar.RowSpaceIntersection

/-!
# Ranks of bit matrices

This module models the rank of a bit matrix, which is the number of pivots of
the elimination.  It is the dimension of the row space, so that a row below a
matrix keeps its rank exactly when the row is in the row space already.
-/

namespace QdkEc

open Bits List EchelonForm Module

namespace AlignedBitMatrix

/-- The number of pivots of the elimination. -/
def rank (m : AlignedBitMatrix) : ℕ :=
  m.echelonize.2.length

variable (m : AlignedBitMatrix)

instance finite_rowSpace (n : ℕ) (g : ℕ → Bits) : Module.Finite (ZMod 2) (rowSpace n g) := by
  rw [rowSpace_eq_span]
  exact FiniteDimensional.span_of_finite _ (Set.finite_range _)

theorem rank_eq_finrank : m.rank = finrank (ZMod 2) (rowSpace m.rowCount m.entries) := by
  have h := eliminated_new m
  have hspace : rowSpace m.rowCount m.entries = _ := h.rowSpace_eq.symm
  rw [rank, echelonize_eq, hspace, h.reduced.rowSpace_eq_rowSpace_length h.length_le,
    rowSpace_eq_span, finrank_span_eq_card h.reduced.independent.linearIndependent,
    Fintype.card_fin]

variable {m}

end AlignedBitMatrix

end QdkEc
