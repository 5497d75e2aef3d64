import QdkEc.Lib.RowSpace

/-!
# Lists of bits

This module reads a list of bits as the bit set of the positions of its ones.
Entrywise sums become sums of bit sets, and loops that add up products of entries
become pairings.
-/

namespace QdkEc

open List

/-- The bit set of the positions of ones in a list. -/
def Bits.ofBools (l : List Bool) : Bits :=
  Bits.fromIndices ((List.range l.length).filter fun j => l.getD j false)

namespace Bits

theorem index_ofBools (v : List Bool) (i : ℕ) : (Bits.ofBools v).index i = v.getD i false := by
  rw [Bits.ofBools, Bits.index_fromIndices]
  rcases Nat.lt_or_ge i v.length with hi | hi
  · simp [hi]
  · simp [hi]

@[simp]
theorem ofBools_nil : ofBools [] = 0 := by
  refine ext_index fun i => ?_
  rw [index_ofBools, index_zero, getD_nil]

theorem below_ofBools {n : ℕ} {v : List Bool} (hv : v.length ≤ n) : (ofBools v).Below n := by
  rw [below_iff]
  intro i hi
  rw [index_ofBools, getD_eq_default _ _ (by omega)]

theorem ofBools_inj {v w : List Bool} (hlength : v.length = w.length) (h : ofBools v = ofBools w) :
    v = w := by
  refine ext_getElem hlength fun i hi hi' => ?_
  have hindex := congrArg (fun b => Bits.index b i) h
  simpa [index_ofBools, hi, hi'] using hindex

theorem ofBools_zipWith_xor {v w : List Bool} (hlength : v.length = w.length) :
    ofBools (List.zipWith xor v w) = ofBools v + ofBools w := by
  refine ext_index fun i => ?_
  rw [index_add, index_ofBools, index_ofBools, index_ofBools]
  rcases Nat.lt_or_ge i v.length with hi | hi
  · simp [getD_eq_getElem?_getD, hi, hlength ▸ hi]
  · rw [getD_eq_default _ _ (by simpa using Or.inl hi), getD_eq_default _ _ hi,
      getD_eq_default _ _ (by omega)]
    rfl

theorem ofBools_map_range (n : ℕ) (b : Bits) : ofBools ((List.range n).map b.index) = low n b := by
  refine ext_index fun i => ?_
  rw [index_ofBools, index_low]
  rcases Nat.lt_or_ge i n with hi | hi
  · simp [getD_eq_getElem?_getD, hi]
  · rw [getD_eq_default _ _ (by simpa using hi), decide_eq_false (by omega), Bool.false_and]

theorem low_succ (n : ℕ) (a : Bits) :
    low (n + 1) a = low n a + if a.index n then unit n else 0 := by
  refine ext_index fun i => ?_
  rw [index_add, index_low, index_low]
  rcases Nat.lt_trichotomy i n with hi | rfl | hi
  · cases ha : a.index n <;> simp [hi, Nat.lt_succ_of_lt hi, Nat.ne_of_gt hi]
  · cases ha : a.index i <;> simp
  · cases ha : a.index n <;> simp [Nat.ne_of_lt hi, show ¬ i < n + 1 by omega,
      show ¬ i < n by omega]

theorem foldl_xor_range (n : ℕ) (f : ℕ → Bool) (a b : Bits)
    (hf : ∀ i, i < n → f i = (a.index i && b.index i)) :
    (List.range n).foldl (fun acc i => acc ^^ f i) false = dot (low n a) b := by
  induction n with
  | zero =>
    have hzero : low 0 a = 0 := by
      refine ext_index fun i => ?_
      simp
    rw [hzero, dot_zero_left]
    rfl
  | succ n ih =>
    rw [range_succ, foldl_append, ih fun i hi => hf i (by omega), low_succ,
      dot_add_left, foldl_cons, foldl_nil, hf n (by omega)]
    cases a.index n <;> simp

end Bits

end QdkEc
