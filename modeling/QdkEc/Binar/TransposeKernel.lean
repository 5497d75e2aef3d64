import QdkEc.Binar.BitVectors

/-!
# Transposition kernels

This module models the kernels that transpose bit matrices inside words.  The
kernel for 64 words exchanges, for each of the six bits of an index, the
off-diagonal halves of all blocks of that size; the kernel for eight words packs
bytes and swaps bits at three distances.
-/

namespace QdkEc

open Nat List Function

theorem foldl_update_range {α : Type} (value : ℕ → α → α) (f : ℕ → α) (n i : ℕ) :
    (List.range n).foldl (fun f k => Function.update f k (value k (f k))) f i =
      if i < n then value i (f i) else f i := by
  induction n with
  | zero => simp
  | succ n ih =>
    rw [range_succ, foldl_append, foldl_cons, foldl_nil]
    rcases eq_or_ne i n with rfl | hne
    · rw [update_self, ih, if_neg (lt_irrefl i), if_pos (lt_succ_self i)]
    · rw [update_of_ne hne, ih]
      exact if_congr (by omega) rfl rfl

/-- Swap the off-diagonal blocks of one pair of words. -/
def swapBlockRows (blockSize : ℕ) (blockMask : Word) (matrix : ℕ → Word) (rowIdFrom : ℕ) :
    ℕ → Word :=
  let rowIdTo := rowIdFrom + blockSize
  let rowFrom := matrix rowIdFrom
  let rowTo := matrix rowIdTo
  let diff := ((rowFrom >>> blockSize) ^^^ rowTo) &&& blockMask
  Function.update (Function.update matrix rowIdTo (rowTo ^^^ diff)) rowIdFrom
    (rowFrom ^^^ (diff <<< blockSize))

def swapBlocks64 (blockSize : ℕ) (blockMask : Word) (matrix : ℕ → Word) : ℕ → Word :=
  (List.range (64 / (2 * blockSize))).foldl (fun matrix step =>
    let blockTopRow := step * (2 * blockSize)
    (List.range blockSize).foldl (fun matrix rowOffset =>
      swapBlockRows blockSize blockMask matrix (blockTopRow + rowOffset)) matrix) matrix

/-- The masks of every other run of bits of one, two, four and so on. -/
def blockMasks : List Word :=
  [0x5555555555555555#64, 0x3333333333333333#64, 0x0F0F0F0F0F0F0F0F#64, 0x00FF00FF00FF00FF#64,
    0x0000FFFF0000FFFF#64, 0x00000000FFFFFFFF#64]

def transpose64x64Inplace (matrix : ℕ → Word) : ℕ → Word :=
  let matrix := swapBlocks64 (2 ^ 0) (blockMasks.getD 0 0) matrix
  let matrix := swapBlocks64 (2 ^ 1) (blockMasks.getD 1 0) matrix
  let matrix := swapBlocks64 (2 ^ 2) (blockMasks.getD 2 0) matrix
  let matrix := swapBlocks64 (2 ^ 3) (blockMasks.getD 3 0) matrix
  let matrix := swapBlocks64 (2 ^ 4) (blockMasks.getD 4 0) matrix
  swapBlocks64 (2 ^ 5) (blockMasks.getD 5 0) matrix

def exchangeBit (k : ℕ) (p : ℕ × ℕ) : ℕ × ℕ :=
  if p.1.testBit k = p.2.testBit k then p else (p.1 ^^^ 2 ^ k, p.2 ^^^ 2 ^ k)

theorem testBit_exchangeBit (k : ℕ) (p : ℕ × ℕ) (j : ℕ) :
    (exchangeBit k p).1.testBit j = (if j = k then p.2 else p.1).testBit j ∧
      (exchangeBit k p).2.testBit j = (if j = k then p.1 else p.2).testBit j := by
  unfold exchangeBit
  split_ifs with hsame hjk hjk
  · subst hjk
    exact ⟨hsame, hsame.symm⟩
  · exact ⟨rfl, rfl⟩
  · subst hjk
    rw [testBit_xor, testBit_xor, testBit_two_pow_self]
    revert hsame
    cases p.1.testBit j <;> cases p.2.testBit j <;> decide
  · rw [testBit_xor, testBit_xor, testBit_two_pow_of_ne (Ne.symm hjk)]
    simp

theorem testBit_foldr_exchangeBit (n : ℕ) (p : ℕ × ℕ) (j : ℕ) :
    ((List.range n).foldr exchangeBit p).1.testBit j = (if j < n then p.2 else p.1).testBit j ∧
      ((List.range n).foldr exchangeBit p).2.testBit j =
        (if j < n then p.1 else p.2).testBit j := by
  induction n generalizing p with
  | zero => simp
  | succ n ih =>
    rw [range_succ, foldr_append, foldr_cons, foldr_nil]
    obtain ⟨hfirst', hsecond'⟩ := testBit_exchangeBit n p j
    rcases Nat.lt_trichotomy j n with hj | rfl | hj
    · simp_all [Nat.ne_of_lt hj, Nat.lt_succ_of_lt hj]
    · simp_all
    · simp_all [Nat.ne_of_gt hj, show ¬ j < n + 1 by omega, show ¬ j < n by omega]

theorem foldr_exchangeBit {r c : ℕ} (hr : r < 64) (hc : c < 64) :
    (List.range 6).foldr exchangeBit (r, c) = (c, r) := by
  have hhigh : ∀ {i j : ℕ}, i < 64 → ¬ j < 6 → i.testBit j = false := by
    intro i j hi hj
    exact Nat.testBit_lt_two_pow (hi.trans_le (Nat.pow_le_pow_right (by decide)
      (Nat.le_of_not_lt hj) : 2 ^ 6 ≤ 2 ^ j))
  refine Prod.ext (Nat.eq_of_testBit_eq fun j => ?_) (Nat.eq_of_testBit_eq fun j => ?_)
  · rw [(testBit_foldr_exchangeBit 6 (r, c) j).1]
    split_ifs with hj
    · rfl
    · rw [hhigh hr hj, hhigh hc hj]
  · rw [(testBit_foldr_exchangeBit 6 (r, c) j).2]
    split_ifs with hj
    · rfl
    · rw [hhigh hr hj, hhigh hc hj]

/-- The first words of the pairs that a pass swaps. -/
def blockRows (blockSize : ℕ) : List ℕ :=
  (List.range (64 / (2 * blockSize))).flatMap fun step =>
    (List.range blockSize).map (step * (2 * blockSize) + ·)

theorem swapBlocks64_eq (blockSize : ℕ) (blockMask : Word) (matrix : ℕ → Word) :
    swapBlocks64 blockSize blockMask matrix =
      (blockRows blockSize).foldl (swapBlockRows blockSize blockMask) matrix := by
  unfold swapBlocks64 blockRows
  rw [foldl_flatMap]
  simp only [foldl_map]

/-- The first word of a pair after the swap. -/
def swappedFrom (blockSize : ℕ) (blockMask rowFrom rowTo : Word) : Word :=
  rowFrom ^^^ ((((rowFrom >>> blockSize) ^^^ rowTo) &&& blockMask) <<< blockSize)

/-- The second word of a pair after the swap. -/
def swappedTo (blockSize : ℕ) (blockMask rowFrom rowTo : Word) : Word :=
  rowTo ^^^ (((rowFrom >>> blockSize) ^^^ rowTo) &&& blockMask)

section Pass

variable {blockSize : ℕ} {blockMask : Word}

theorem foldl_swapBlockRows_of_notMem {l : List ℕ} {r : ℕ} (hfrom : r ∉ l)
    (hto : ∀ a ∈ l, a + blockSize ≠ r) (matrix : ℕ → Word) :
    l.foldl (swapBlockRows blockSize blockMask) matrix r = matrix r := by
  induction l generalizing matrix with
  | nil => rfl
  | cons a l ih =>
    rw [mem_cons, not_or] at hfrom
    rw [foldl_cons, ih hfrom.2 fun b hb => hto b (by simp [hb]), swapBlockRows,
      update_of_ne hfrom.1, update_of_ne (hto a (by simp)).symm]

theorem foldl_swapBlockRows (blockMask : Word) (hpos : 0 < blockSize) {l : List ℕ}
    (hnodup : l.Nodup) (hdisjoint : ∀ a ∈ l, ∀ b ∈ l, a + blockSize ≠ b) (matrix : ℕ → Word) {a : ℕ}
    (ha : a ∈ l) : l.foldl (swapBlockRows blockSize blockMask) matrix a =
        swappedFrom blockSize blockMask (matrix a) (matrix (a + blockSize)) ∧
      l.foldl (swapBlockRows blockSize blockMask) matrix (a + blockSize) =
        swappedTo blockSize blockMask (matrix a) (matrix (a + blockSize)) := by
  induction l generalizing matrix with
  | nil => cases ha
  | cons b l ih =>
    obtain ⟨hb, hnodup⟩ := nodup_cons.mp hnodup
    rw [foldl_cons]
    rcases mem_cons.mp ha with rfl | hal
    · have hto : a + blockSize ∉ l := fun h => hdisjoint a (by simp) _ (by simp [h]) rfl
      rw [foldl_swapBlockRows_of_notMem hb fun c hc => hdisjoint c (by simp [hc]) a (by simp),
        foldl_swapBlockRows_of_notMem hto fun c hc heq => by
          obtain rfl : c = a := by omega
          exact hb hc]
      refine ⟨update_self _ _ _, ?_⟩
      rw [swapBlockRows, update_of_ne (by omega), update_self]
      rfl
    · have hne : a ≠ b := fun h => hb (h ▸ hal)
      have hkeep : ∀ r, r = a ∨ r = a + blockSize →
          swapBlockRows blockSize blockMask matrix b r = matrix r := by
        intro r hr
        have hfrom : r ≠ b := by
          rcases hr with rfl | rfl
          · exact hne
          · exact hdisjoint a ha b (by simp)
        have hto : r ≠ b + blockSize := by
          rcases hr with rfl | rfl
          · exact (hdisjoint b (by simp) r ha).symm
          · omega
        rw [swapBlockRows, update_of_ne hfrom, update_of_ne hto]
      have hrest := ih hnodup (fun c hc d hd => hdisjoint c (by simp [hc]) d (by simp [hd]))
        (swapBlockRows blockSize blockMask matrix b) hal
      rwa [hkeep a (Or.inl rfl), hkeep (a + blockSize) (Or.inr rfl)] at hrest

end Pass

theorem blockRows_spec : ∀ k < 6, (blockRows (2 ^ k)).Nodup ∧
      (∀ a ∈ blockRows (2 ^ k), ∀ b ∈ blockRows (2 ^ k), a + 2 ^ k ≠ b) ∧
        ∀ r < 64, if r.testBit k = true then
          r ^^^ 2 ^ k ∈ blockRows (2 ^ k) ∧ (r ^^^ 2 ^ k) + 2 ^ k = r
        else r ∈ blockRows (2 ^ k) ∧ r + 2 ^ k = r ^^^ 2 ^ k := by
  decide +kernel

theorem getLsbD_blockMasks : ∀ k < 6, ∀ c < 64, (blockMasks.getD k 0).getLsbD c = !c.testBit k := by
  decide +kernel

section Bits

variable {k c : ℕ} (hk : k < 6) (hc : c < 64)

theorem testBit_xor_two_pow_self (k c : ℕ) : (c ^^^ 2 ^ k).testBit k = !c.testBit k := by
  rw [testBit_xor, testBit_two_pow_self, Bool.xor_true]

include hk hc

theorem xor_two_pow_add (h : c.testBit k = true) : (c ^^^ 2 ^ k) + 2 ^ k = c := by
  have hspec := (blockRows_spec k hk).2.2 c hc
  rw [if_pos h] at hspec
  exact hspec.2

theorem add_two_pow (h : c.testBit k = false) : c + 2 ^ k = c ^^^ 2 ^ k := by
  have hspec := (blockRows_spec k hk).2.2 c hc
  rw [if_neg (by simp [h])] at hspec
  exact hspec.2

theorem getLsbD_swappedTo (rowFrom rowTo : Word) :
    (swappedTo (2 ^ k) (blockMasks.getD k 0) rowFrom rowTo).getLsbD c =
      if c.testBit k = true then rowTo.getLsbD c else rowFrom.getLsbD (c ^^^ 2 ^ k) := by
  rw [swappedTo, BitVec.getLsbD_xor, BitVec.getLsbD_and, BitVec.getLsbD_xor,
    BitVec.getLsbD_ushiftRight, getLsbD_blockMasks k hk c hc]
  split_ifs with hbit
  · simp [hbit]
  · rw [Bool.not_eq_true] at hbit
    rw [hbit, Nat.add_comm, add_two_pow hk hc hbit, Bool.not_false, Bool.and_true, Bool.xor_comm,
      Bool.xor_assoc, Bool.xor_self, Bool.xor_false]

theorem getLsbD_swappedFrom (rowFrom rowTo : Word) :
    (swappedFrom (2 ^ k) (blockMasks.getD k 0) rowFrom rowTo).getLsbD c =
      if c.testBit k = true then rowTo.getLsbD (c ^^^ 2 ^ k) else rowFrom.getLsbD c := by
  rw [swappedFrom, BitVec.getLsbD_xor, BitVec.getLsbD_shiftLeft, BitVec.getLsbD_and,
    BitVec.getLsbD_xor, BitVec.getLsbD_ushiftRight]
  split_ifs with hbit
  · have hsum := xor_two_pow_add hk hc hbit
    have hdiff : c - 2 ^ k = c ^^^ 2 ^ k := by omega
    have hlt : c ^^^ 2 ^ k < 64 := by
      have hpos := Nat.two_pow_pos k
      omega
    rw [hdiff, Nat.add_comm, hsum, getLsbD_blockMasks k hk _ hlt, testBit_xor_two_pow_self,
      hbit, decide_eq_true hc, decide_eq_false (by omega : ¬ c < 2 ^ k)]
    simp
  · rw [Bool.not_eq_true] at hbit
    rcases lt_or_ge c (2 ^ k) with hlow | hhigh
    · simp [hlow]
    · have hlt : c - 2 ^ k < 64 := (sub_le c _).trans_lt hc
      have hmask : (c - 2 ^ k).testBit k = true := by
        by_contra hclear
        rw [Bool.not_eq_true] at hclear
        have hsum := add_two_pow hk hlt hclear
        rw [Nat.sub_add_cancel hhigh] at hsum
        rw [hsum, testBit_xor_two_pow_self, hclear] at hbit
        cases hbit
      rw [getLsbD_blockMasks k hk _ hlt, hmask]
      simp

end Bits

theorem getLsbD_swapBlocks64 {k r c : ℕ} (hk : k < 6) (hr : r < 64) (hc : c < 64)
    (matrix : ℕ → Word) : (swapBlocks64 (2 ^ k) (blockMasks.getD k 0) matrix r).getLsbD c =
      (matrix (exchangeBit k (r, c)).1).getLsbD (exchangeBit k (r, c)).2 := by
  obtain ⟨hnodup, hdisjoint, hcover⟩ := blockRows_spec k hk
  have hrow := hcover r hr
  rw [swapBlocks64_eq, exchangeBit]
  cases hbit : r.testBit k with
  | false =>
    rw [if_neg (by simp [hbit])] at hrow
    obtain ⟨hfrom, _⟩ := foldl_swapBlockRows (blockMasks.getD k 0)
      (Nat.two_pow_pos k) hnodup hdisjoint matrix hrow.1
    rw [hfrom, getLsbD_swappedFrom hk hc, hrow.2]
    cases hcol : c.testBit k <;> simp
  | true =>
    rw [if_pos hbit] at hrow
    obtain ⟨_, hto⟩ := foldl_swapBlockRows (blockMasks.getD k 0)
      (Nat.two_pow_pos k) hnodup hdisjoint matrix hrow.1
    rw [hrow.2] at hto
    rw [hto, getLsbD_swappedTo hk hc]
    cases hcol : c.testBit k <;> simp

theorem getLsbD_transpose64x64Inplace {r c : ℕ} (hr : r < 64) (hc : c < 64) (matrix : ℕ → Word) :
    (transpose64x64Inplace matrix r).getLsbD c = (matrix c).getLsbD r := by
  have hlt : ∀ (k : ℕ) (p : ℕ × ℕ), k < 6 → p.1 < 64 ∧ p.2 < 64 →
      (exchangeBit k p).1 < 64 ∧ (exchangeBit k p).2 < 64 := by
    intro k p hk hp
    have hpow : 2 ^ k < 2 ^ 6 := Nat.pow_lt_pow_right (by decide) hk
    unfold exchangeBit
    split_ifs
    · exact hp
    · exact ⟨Nat.xor_lt_two_pow (n := 6) hp.1 hpow, Nat.xor_lt_two_pow (n := 6) hp.2 hpow⟩
  have hpass : ∀ (k : ℕ) (p : ℕ × ℕ) (matrix : ℕ → Word), k < 6 → p.1 < 64 ∧ p.2 < 64 →
      (swapBlocks64 (2 ^ k) (blockMasks.getD k 0) matrix p.1).getLsbD p.2 =
        (matrix (exchangeBit k p).1).getLsbD (exchangeBit k p).2 := by
    intro k p matrix hk hp
    exact getLsbD_swapBlocks64 hk hp.1 hp.2 matrix
  have h5 := hlt 5 (r, c) (by decide) ⟨hr, hc⟩
  have h4 := hlt 4 _ (by decide) h5
  have h3 := hlt 3 _ (by decide) h4
  have h2 := hlt 2 _ (by decide) h3
  have h1 := hlt 1 _ (by decide) h2
  rw [transpose64x64Inplace, hpass 5 (r, c) _ (by decide) ⟨hr, hc⟩, hpass 4 _ _ (by decide) h5,
    hpass 3 _ _ (by decide) h4, hpass 2 _ _ (by decide) h3, hpass 1 _ _ (by decide) h2,
    hpass 0 _ _ (by decide) h1]
  have hall : exchangeBit 0 (exchangeBit 1 (exchangeBit 2 (exchangeBit 3 (exchangeBit 4
      (exchangeBit 5 (r, c)))))) = (c, r) := foldr_exchangeBit hr hc
  rw [hall]

/-- Swap the bits at a distance where the mask has a bit at the lower one. -/
def deltaSwap (x mask : Word) (delta : ℕ) : Word :=
  let t := ((x >>> delta) ^^^ x) &&& mask
  x ^^^ t ^^^ (t <<< delta)

def packBytes (w : ℕ → Word) (byteIdx : ℕ) : Word :=
  (List.range 8).foldl (fun x wordIdx =>
    x ||| (((w wordIdx >>> (byteIdx * 8)) &&& 0xFF#64) <<< (wordIdx * 8))) 0

/-- Transpose eight words into 64 patterns, eight in a word. -/
def transpose8x64 (w : ℕ → Word) (byteIdx : ℕ) : Word :=
  let x := packBytes w byteIdx
  let x := deltaSwap x 0x00AA00AA00AA00AA#64 7
  let x := deltaSwap x 0x0000CCCC0000CCCC#64 14
  deltaSwap x 0x00000000F0F0F0F0#64 28

/-- The position whose bit a delta swap moves to a position. -/
def deltaSource (mask : Word) (delta p : ℕ) : ℕ :=
  if mask.getLsbD p = true then p + delta
  else if delta ≤ p ∧ mask.getLsbD (p - delta) = true then p - delta
  else p

theorem getLsbD_deltaSwap {mask : Word} {delta p : ℕ} (hp : p < 64)
    (hmask : mask.getLsbD p = true → delta ≤ p → mask.getLsbD (p - delta) = false) (x : Word) :
    (deltaSwap x mask delta).getLsbD p = x.getLsbD (deltaSource mask delta p) := by
  have hcancel : ∀ a b : Bool, (a ^^ (b ^^ a)) = b := by decide
  rw [deltaSwap, BitVec.getLsbD_xor, BitVec.getLsbD_xor, BitVec.getLsbD_shiftLeft,
    BitVec.getLsbD_and, BitVec.getLsbD_and, BitVec.getLsbD_xor, BitVec.getLsbD_xor,
    BitVec.getLsbD_ushiftRight, BitVec.getLsbD_ushiftRight, deltaSource, decide_eq_true hp,
    Bool.true_and]
  rcases lt_or_ge p delta with hlow | hhigh
  · rw [decide_eq_true hlow, if_neg (fun h : delta ≤ p ∧ _ => by omega)]
    split_ifs with hbit
    · simp [hbit, hcancel, Nat.add_comm]
    · simp [hbit]
  · rw [decide_eq_false (by omega), Nat.add_sub_cancel' hhigh]
    split_ifs with hbit hsource
    · simp [hbit, hmask hbit hhigh, hcancel, Nat.add_comm]
    · simp [hbit, hsource.2]
    · have hclear : mask.getLsbD (p - delta) = false := by
        rw [← Bool.not_eq_true]
        exact fun h => hsource ⟨hhigh, h⟩
      simp [hbit, hclear]

theorem deltaSource_spec : ∀ j < 8, ∀ b < 8,
      deltaSource 0x00AA00AA00AA00AA#64 7 (deltaSource 0x0000CCCC0000CCCC#64 14
        (deltaSource 0x00000000F0F0F0F0#64 28 (8 * j + b))) = 8 * b + j := by
  decide +kernel

theorem deltaMasks_spec :
    ∀ swap ∈ [(0x00AA00AA00AA00AA#64, 7), (0x0000CCCC0000CCCC#64, 14), (0x00000000F0F0F0F0#64, 28)],
      ∀ p < 64, deltaSource swap.1 swap.2 p < 64 ∧
        (swap.1.getLsbD p = true → swap.2 ≤ p → swap.1.getLsbD (p - swap.2) = false) := by
  decide +kernel

theorem getLsbD_byteMask (p : ℕ) : (0xFF#64 : Word).getLsbD p = decide (p < 8) := by
  rcases lt_or_ge p 64 with hp | hp
  · revert p
    decide +kernel
  · rw [BitVec.getLsbD_of_ge _ _ hp, decide_eq_false (by omega)]

theorem getLsbD_packBytes {byteIdx a b : ℕ} (ha : a < 8) (hb : b < 8) (w : ℕ → Word) :
    (packBytes w byteIdx).getLsbD (8 * a + b) = (w a).getLsbD (8 * byteIdx + b) := by
  have hpacked : ∀ n, ((List.range n).foldl (fun x wordIdx =>
      x ||| (((w wordIdx >>> (byteIdx * 8)) &&& 0xFF#64) <<< (wordIdx * 8))) (0 : Word)).getLsbD
        (8 * a + b) = (decide (a < n) && (w a).getLsbD (8 * byteIdx + b)) := by
    intro n
    induction n with
    | zero => simp
    | succ n ih =>
      rw [range_succ, foldl_append, foldl_cons, foldl_nil,
        BitVec.getLsbD_or, ih, BitVec.getLsbD_shiftLeft, BitVec.getLsbD_and,
        BitVec.getLsbD_ushiftRight, getLsbD_byteMask]
      rcases Nat.lt_trichotomy a n with han | rfl | han
      · simp [show a < n + 1 by omega, han, show 8 * a + b < n * 8 by omega]
      · rw [Nat.mul_comm a 8, Nat.mul_comm byteIdx 8, Nat.add_sub_cancel_left]
        simp [show 8 * a + b < 64 by omega, hb]
      · simp [show ¬ a < n + 1 by omega, show ¬ a < n by omega,
          show ¬ 8 * a + b - n * 8 < 8 by omega]
  rw [packBytes, hpacked, decide_eq_true ha, Bool.true_and]

theorem getLsbD_transpose8x64 {byteIdx j b : ℕ} (hj : j < 8) (hb : b < 8) (w : ℕ → Word) :
    (transpose8x64 w byteIdx).getLsbD (8 * j + b) = (w b).getLsbD (8 * byteIdx + j) := by
  obtain ⟨hfirst, hsecond, hthird⟩ : _ ∧ _ ∧ _ := by
    simpa only [forall_mem_cons, not_mem_nil, IsEmpty.forall_iff, implies_true,
      and_true] using deltaMasks_spec
  have hp : 8 * j + b < 64 := by omega
  obtain ⟨hp', hmask⟩ := hthird _ hp
  obtain ⟨hp'', hmask'⟩ := hsecond _ hp'
  obtain ⟨_, hmask''⟩ := hfirst _ hp''
  rw [transpose8x64, getLsbD_deltaSwap hp hmask, getLsbD_deltaSwap hp' hmask',
    getLsbD_deltaSwap hp'' hmask'', deltaSource_spec j hj b hb, getLsbD_packBytes hb hj]

end QdkEc
