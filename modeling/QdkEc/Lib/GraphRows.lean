import QdkEc.Lib.RowSpace

/-!
# Row spaces over a unit block

A row space whose rows begin with a unit block is the graph of a square matrix.
Such rows are in reduced echelon form, and as many independent rows of a row
space as it has generators span it.
-/

namespace QdkEc

namespace Bits

/-- One bit set after the first `n` positions of another one. -/
def append (n : ℕ) (a b : Bits) : Bits :=
  a + b.shiftUp n

theorem index_append {n : ℕ} {a : Bits} (ha : a.Below n) (b : Bits) (j : ℕ) :
    (append n a b).index j = if j < n then a.index j else b.index (j - n) := by
  unfold append
  rw [index_add, index_shiftUp]
  rcases Nat.lt_or_ge j n with hj | hj
  · rw [if_pos hj, decide_eq_false (by omega), Bool.false_and, Bool.xor_false]
  · rw [if_neg (by omega), ha.index_eq_false hj, decide_eq_true hj, Bool.true_and, Bool.false_xor]

theorem append_injective {n : ℕ} {a b c d : Bits} (ha : a.Below n) (hc : c.Below n)
    (h : append n a b = append n c d) : a = c ∧ b = d := by
  have hindex := fun j => congrArg (index · j) h
  simp only [index_append ha, index_append hc] at hindex
  refine ⟨ext_index fun j => ?_, ext_index fun j => ?_⟩
  · rcases Nat.lt_or_ge j n with hj | hj
    · simpa [hj] using hindex j
    · rw [ha.index_eq_false hj, hc.index_eq_false hj]
  · simpa using hindex (n + j)

/-- The rows of the graph of a square matrix. -/
def graphRows (n : ℕ) (S : ℕ → Bits) (i : ℕ) : Bits :=
  if i < n then append n (unit i) (S i) else 0

variable (S : ℕ → Bits)

theorem graphRows_of_lt {n i : ℕ} (hi : i < n) :
    graphRows n S i = append n (unit i) (S i) :=
  if_pos hi

theorem graphRows_of_le {n i : ℕ} (hi : n ≤ i) : graphRows n S i = 0 :=
  if_neg (by omega)

theorem index_graphRows_low {n j : ℕ} (hj : j < n) (i : ℕ) :
    (graphRows n S i).index j = decide (i = j) := by
  rcases Nat.lt_or_ge i n with hi | hi
  · rw [graphRows_of_lt S hi, index_append (below_unit.mpr hi), if_pos hj, index_unit]
  · rw [graphRows_of_le S hi, index_zero, decide_eq_false (by omega)]

theorem reduced_graphRows (n : ℕ) (S : ℕ → Bits) : Reduced (graphRows n S) (List.range n) where
  sorted := List.pairwise_lt_range
  leading i hi j hj := by
    rw [List.length_range] at hi
    rw [List.getElem_range] at hj
    rw [index_graphRows_low S (by omega), decide_eq_false (by omega)]
  pivot i j hj := by
    rw [List.length_range] at hj
    rw [List.getElem_range, index_graphRows_low S hj]
  zero i hi := by
    rw [List.length_range] at hi
    exact graphRows_of_le S hi

theorem Reduced.combine_injOn {g : ℕ → Bits} {pivots : List ℕ} (h : Reduced g pivots) :
    Set.InjOn (combine g) {t | t.Below pivots.length} := by
  intro s hs t ht heq
  rw [← h.coefficients_combine hs, heq, h.coefficients_combine ht]

theorem rowSpace_eq_of_le {n : ℕ} {g m : ℕ → Bits} (hinj : Set.InjOn (combine g) {t | t.Below n})
    (hle : rowSpace n g ≤ rowSpace n m) : rowSpace n g = rowSpace n m := by
  have himage : ∀ f : ℕ → Bits, (rowSpace n f : Set Bits) = combine f '' {t | t.Below n} :=
    fun f => rfl
  have hfinite : (rowSpace n m : Set Bits).Finite := by exact (finite_below n).image _
  have hcard : (rowSpace n m : Set Bits).ncard ≤ (rowSpace n g : Set Bits).ncard := by
    rw [himage, himage, hinj.ncard_image]
    exact Set.ncard_image_le (finite_below n)
  exact SetLike.coe_injective (Set.eq_of_subset_of_ncard_le hle hcard hfinite)

theorem rowSpace_graphRows_eq {n : ℕ} {S m : ℕ → Bits}
    (h : ∀ i, i < n → append n (unit i) (S i) ∈ rowSpace n m) :
    rowSpace n (graphRows n S) = rowSpace n m := by
  refine rowSpace_eq_of_le ?_ (rowSpace_le.mpr fun i hi => ?_)
  · have hinj := (reduced_graphRows n S).combine_injOn
    rwa [List.length_range] at hinj
  · rw [graphRows_of_lt S hi]
    exact h i hi

end Bits

end QdkEc
