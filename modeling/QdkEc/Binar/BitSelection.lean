import QdkEc.Binar.BitVecRefinement
import QdkEc.Lib.OptionTraversal

/-!
# Selecting the bits of a vector

This module models `selected_from`.  The loop writes every selected bit at the
index that it has in the source, into a vector with as many bits as are
selected.  The result holds the selected bits in their order exactly when the
source has them at the right places already.
-/

namespace QdkEc

namespace AlignedBitVec

/-- Copy the bit at an index; `none` is an index beyond the blocks of one of the vectors. -/
def copyIndex (view bits : AlignedBitVec) (index : ℕ) :
    Option AlignedBitVec := do
  let value ← view.index index
  bits.assignIndex index value

/-- Copy the selected bits into zeros for their number; `none` is an index beyond the blocks. -/
def selectedFrom (view : AlignedBitVec) (support : List ℕ) : Option AlignedBitVec :=
  support.foldlM view.copyIndex (zeros support.length)

theorem bitLen_zeros (length : ℕ) : (zeros length).bitLen = bitsPerBlock * blockCount length := by
  rw [bitLen, zeros, List.length_replicate, bitsPerBlock, Nat.mul_assoc]

theorem bitLen_assignBit (v : AlignedBitVec) (i : ℕ) (value : Bool) :
    (v.assignBit i value).bitLen = v.bitLen := by
  rw [bitLen, bitLen, length_words_assignBit]

section Selection

variable {view : AlignedBitVec}

theorem copyIndex_eq {i : ℕ} (hi : i < view.bitLen) (bits : AlignedBitVec) : view.copyIndex bits i =
      if i < bits.bitLen then some (bits.assignBit i (view.toBits.index i)) else none := by
  rw [copyIndex, index_eq, if_pos hi, Option.bind_eq_bind, Option.bind_some, assignIndex]

theorem index_toBits_foldl_assignBit {support : List ℕ} {bits : AlignedBitVec}
    (hbits : ∀ i ∈ support, i < bits.bitLen) (j : ℕ) :
    (support.foldl (fun bits i => bits.assignBit i (view.toBits.index i)) bits).toBits.index j =
      if j ∈ support then view.toBits.index j else bits.toBits.index j := by
  induction support generalizing bits with
  | nil => simp
  | cons i support ih =>
    have hrest : ∀ k ∈ support, k < (bits.assignBit i (view.toBits.index i)).bitLen := by
      intro k hk
      rw [bitLen_assignBit]
      exact hbits k (by simp [hk])
    rw [List.foldl_cons, ih hrest, index_toBits_assignBit (hbits i (by simp))]
    rcases eq_or_ne j i with rfl | hji
    · simp
    · simp [hji]

theorem bitLen_foldl_assignBit (support : List ℕ) (bits : AlignedBitVec) :
    (support.foldl (fun bits i => bits.assignBit i (view.toBits.index i)) bits).bitLen =
      bits.bitLen :=
  List.foldlRecOn (motive := fun copied : AlignedBitVec => copied.bitLen = bits.bitLen) support _
    rfl fun _ h _ _ => (bitLen_assignBit _ _ _).trans h

theorem selectedFrom_eq {support : List ℕ} (hsupport : ∀ i ∈ support, i < view.bitLen) :
    view.selectedFrom support = if ∀ i ∈ support, i < bitsPerBlock * blockCount support.length then
        some (support.foldl (fun bits i => bits.assignBit i (view.toBits.index i))
          (zeros support.length)) else none := by
  refine foldlM_eq_ite (I := fun bits => bits.bitLen = bitsPerBlock * blockCount support.length)
    (fun i hi bits hbits => ?_) (fun bits i hbits => ?_) (bitLen_zeros _)
  · rw [copyIndex_eq (hsupport i hi), hbits]
  · rw [bitLen_assignBit, hbits]

end Selection

end AlignedBitVec

namespace BitsTruncated

open AlignedBitVec

/-- The vector with the selected bits of another one; `none` is an index beyond the blocks. -/
def selectedFrom (view : BitsTruncated) (support : List ℕ) :
    Option BitsTruncated := do
  let bits ← view.bits.selectedFrom support
  some { bits := bits, bitLength := support.length }

/-- The selection has one bit for every index of the list, and it is the bit at that index. -/
def Selects (view : BitsTruncated) (support : List ℕ) : Prop :=
  ∃ selected, view.selectedFrom support = some selected ∧ selected.len = support.length ∧
    ∀ k (hk : k < support.length), selected.index k = view.index support[k]

/-- The blocks for as many bits as are selected reach every selected index, and a position of the
list selects a one exactly when it is itself a selected index and holds a one. -/
def SelectsInPlace (view : BitsTruncated) (support : List ℕ) : Prop :=
  (∀ i ∈ support, i < bitsPerBlock * blockCount support.length) ∧
    ∀ k (hk : k < support.length),
      view.bits.toBits.index support[k] = (decide (k ∈ support) && view.bits.toBits.index k)

instance (view : BitsTruncated) (support : List ℕ) : Decidable (view.SelectsInPlace support) :=
  inferInstanceAs (Decidable (_ ∧ _))

/-- A selection is right exactly when the selected bits are in place already. -/
theorem selects_iff {view : BitsTruncated} {support : List ℕ}
    (hbits : view.bitLength ≤ view.bits.bitLen) (hsupport : ∀ i ∈ support, i < view.bitLength) :
    view.Selects support ↔ view.SelectsInPlace support := by
  have hview : ∀ i ∈ support, i < view.bits.bitLen := fun i hi => (hsupport i hi).trans_le hbits
  unfold Selects SelectsInPlace selectedFrom
  rw [selectedFrom_eq hview]
  split_ifs with hfit
  · rw [and_iff_right hfit]
    simp only [Option.bind_eq_bind, Option.bind_some, Option.some.injEq, exists_eq_left', len,
      true_and]
    refine forall_congr' fun k => forall_congr' fun hk => ?_
    have hread : view.index support[k] = some (view.bits.toBits.index support[k]) := by
      rw [index, if_pos (hsupport _ (List.getElem_mem hk)), index_eq,
        if_pos (hview _ (List.getElem_mem hk))]
    have hplace : k < (AlignedBitVec.zeros support.length).bitLen := by
      rw [bitLen, AlignedBitVec.zeros, List.length_replicate]
      exact hk.trans_le (le_bitsPerBlock_mul_blockCount support.length)
    rw [hread, index, if_pos hk, index_eq, bitLen_foldl_assignBit, if_pos hplace,
      index_toBits_foldl_assignBit (by rwa [bitLen_zeros]), Option.some.injEq,
      index_toBits_zeros, eq_comm]
    by_cases hmem : k ∈ support <;> simp [hmem]
  · refine iff_of_false ?_ fun hplace => hfit hplace.1
    rintro ⟨selected, hselected, _⟩
    cases hselected

theorem selects_iff_prefix : (fromIter [true, false, true]).Selects [0, 1] :=
  (selects_iff (by decide) (by decide)).mpr (by decide)

/-- Three selected ones are written at the indices that they have in the source. -/
theorem not_selects :
    ¬ ∀ (view : BitsTruncated) (support : List ℕ), view.bitLength ≤ view.bits.bitLen →
      (∀ i ∈ support, i < view.bitLength) → view.Selects support := by
  intro hall
  obtain ⟨selected, hselected, _, hindex⟩ := hall
    (fromIter [false, false, true, false, false, true, false, true, false, false]) [2, 5, 7]
    (by decide) (by decide)
  have hzero := hindex 0 (by decide)
  have hrun : ((fromIter [false, false, true, false, false, true, false, true, false,
      false]).selectedFrom [2, 5, 7]).bind (·.index 0) = some false := by
    decide
  rw [hselected, Option.bind_some, hzero] at hrun
  revert hrun
  decide

end BitsTruncated

end QdkEc
