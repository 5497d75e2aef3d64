import QdkEc.Binar.BitVectors

/-!
# Operations on the words of bit vectors

This module models the operations of `AlignedBitVec` on which `BitVec` is built:
construction, resizing, random access, the operations on pairs, the shift and the
extraction of a range of blocks.  Each has one lemma that says which bits it
stores.
-/

namespace QdkEc

open List Bits Nat

namespace Word

/-- The word of the bits of a list from a position on. -/
def ofBools (l : List Bool) (start : ℕ) : Word :=
  BitVec.ofNat 64 (Bits.fromIndices ((List.range 64).filter fun j => l.getD (start + j) false)).mask

theorem getLsbD_ofBools (l : List Bool) (start : ℕ) {j : ℕ} (hj : j < 64) :
    (ofBools l start).getLsbD j = l.getD (start + j) false := by
  rw [ofBools, BitVec.getLsbD_ofNat, decide_eq_true hj, Bool.true_and]
  refine (index_fromIndices _ j).trans ?_
  simp [hj]

/-- Overwrite one bit of a word. -/
def assignIndex (w : Word) (i : ℕ) (value : Bool) : Word :=
  if value then w ||| BitVec.twoPow 64 i else w &&& ~~~BitVec.twoPow 64 i

theorem getLsbD_assignIndex (w : Word) {i j : ℕ} (value : Bool) (hj : j < 64) :
    (w.assignIndex i value).getLsbD j = if j = i then value else w.getLsbD j := by
  unfold assignIndex
  rcases eq_or_ne j i with rfl | hij
  · cases value <;> simp [hj]
  · cases value <;> simp [hij, hj]

end Word

/-- Combine words into the first words of a list. -/
def zipAssignWords (f : Word → Word → Word) : List Word → List Word → List Word
  | w :: ws, o :: os => f w o :: zipAssignWords f ws os
  | ws, _ => ws

@[simp]
theorem length_zipAssignWords (f : Word → Word → Word) (ws os : List Word) :
    (zipAssignWords f ws os).length = ws.length := by
  induction ws generalizing os with
  | nil => cases os <;> rfl
  | cons w ws ih =>
    cases os with
    | nil => rfl
    | cons o os => simp [zipAssignWords, ih]

theorem getD_zipAssignWords {f : Word → Word → Word} (hf : f 0#64 0#64 = 0#64) {ws os : List Word}
    (hlength : ws.length = os.length) (k : ℕ) :
    (zipAssignWords f ws os).getD k 0 = f (ws.getD k 0) (os.getD k 0) := by
  induction ws generalizing os k with
  | nil =>
    obtain rfl := length_eq_zero_iff.mp hlength.symm
    simp [zipAssignWords, hf]
  | cons w ws ih =>
    cases os with
    | nil => simp at hlength
    | cons o os =>
      cases k with
      | zero => rfl
      | succ k => simpa [zipAssignWords] using ih (by simpa using hlength) k

def shiftWords (bitShift : ℕ) : List Word → List Word
  | [] => []
  | [w] => [w >>> bitShift]
  | w :: v :: ws => ((w >>> bitShift) ||| (v <<< (64 - bitShift))) :: shiftWords bitShift (v :: ws)

@[simp]
theorem length_shiftWords (bitShift : ℕ) (ws : List Word) :
    (shiftWords bitShift ws).length = ws.length := by
  induction ws with
  | nil => rfl
  | cons w ws ih =>
    cases ws with
    | nil => rfl
    | cons v ws => simpa [shiftWords] using ih

theorem getD_shiftWords (bitShift : ℕ) (ws : List Word) (k : ℕ) :
    (shiftWords bitShift ws).getD k 0 =
      (ws.getD k 0 >>> bitShift) ||| (ws.getD (k + 1) 0 <<< (64 - bitShift)) := by
  induction ws generalizing k with
  | nil => simp [shiftWords]
  | cons w ws ih =>
    cases ws with
    | nil => cases k <;> simp [shiftWords]
    | cons v ws =>
      cases k with
      | zero => rfl
      | succ k => simpa [shiftWords] using ih k

theorem ofWords_shiftWords {bitShift : ℕ} (hpos : 0 < bitShift) (hlt : bitShift < 64)
    (ws : List Word) : ofWords (shiftWords bitShift ws) = shiftDown bitShift (ofWords ws) := by
  refine ext_index fun i => ?_
  rw [index_ofWords, getD_shiftWords, index_shiftDown, index_ofWords,
    BitVec.getLsbD_or, BitVec.getLsbD_ushiftRight, BitVec.getLsbD_shiftLeft]
  rcases lt_or_ge (bitShift + i % 64) 64 with hlow | hhigh
  · have hdiv : (bitShift + i) / 64 = i / 64 := by omega
    have hmod : (bitShift + i) % 64 = bitShift + i % 64 := by omega
    have hnext : i % 64 < 64 - bitShift := by omega
    rw [hdiv, hmod, decide_eq_true hnext]
    simp
  · have hdiv : (bitShift + i) / 64 = i / 64 + 1 := by omega
    have hmod : (bitShift + i) % 64 = i % 64 - (64 - bitShift) := by omega
    have hnext : ¬ i % 64 < 64 - bitShift := by omega
    rw [hdiv, hmod, BitVec.getLsbD_of_ge _ _ hhigh, decide_eq_false hnext]
    simp [mod_lt]

theorem ofWords_replicate (n : ℕ) : ofWords (List.replicate n 0) = 0 := by
  refine ext_index fun i => ?_
  rw [index_ofWords, index_zero, getD_eq_getElem?_getD, getElem?_replicate]
  split_ifs <;> simp

theorem ofWords_append_replicate (ws : List Word) (n : ℕ) :
    ofWords (ws ++ List.replicate n 0) = ofWords ws := by
  refine ext_index fun i => ?_
  rw [index_ofWords, index_ofWords, getD_eq_getElem?_getD, getD_eq_getElem?_getD, getElem?_append]
  split_ifs with hi
  · rfl
  · rw [getElem?_replicate, getElem?_eq_none (by omega)]
    split_ifs <;> rfl

theorem ofWords_drop (ws : List Word) (k : ℕ) :
    ofWords (ws.drop k) = shiftDown (64 * k) (ofWords ws) := by
  refine ext_index fun i => ?_
  have hdiv : (64 * k + i) / 64 = k + i / 64 := by omega
  have hmod : (64 * k + i) % 64 = i % 64 := by omega
  rw [index_shiftDown, index_ofWords, index_ofWords, hdiv, hmod,
    getD_eq_getElem?_getD, getD_eq_getElem?_getD, getElem?_drop]

theorem words_eq_of_ofWords_eq {ws os : List Word} (hlength : ws.length = os.length)
    (h : ofWords ws = ofWords os) : ws = os := by
  refine ext_getElem hlength fun k hk hk' => ?_
  refine BitVec.eq_of_getLsbD_eq fun j hj => ?_
  have hindex := congrArg (fun b => b.index (64 * k + j)) h
  have hdiv : (64 * k + j) / 64 = k := by omega
  have hmod : (64 * k + j) % 64 = j := by omega
  simpa [index_ofWords, hdiv, hmod, hk, hk'] using hindex

namespace AlignedBitVec

def bitsPerBlock : ℕ :=
  64 * bitBlockWordCount

/-- The number of blocks for a number of bits. -/
def blockCount (length : ℕ) : ℕ :=
  length / bitsPerBlock + if length % bitsPerBlock = 0 then 0 else 1

/-- Zeros for a number of bits, in whole blocks. -/
def zeros (length : ℕ) : AlignedBitVec where
  words := List.replicate (bitBlockWordCount * blockCount length) 0
  blocks_aligned := by
    rw [length_replicate]
    exact Nat.dvd_mul_right _ _

/-- Blocks full of ones for a number of bits. -/
def ones (length : ℕ) : AlignedBitVec where
  words := List.replicate (bitBlockWordCount * blockCount length) (BitVec.allOnes 64)
  blocks_aligned := by
    rw [length_replicate]
    exact Nat.dvd_mul_right _ _

/-- The bits of a list in whole blocks, with their number. -/
def withLengthFromIter (l : List Bool) : AlignedBitVec × ℕ where
  fst := {
    words := (List.range (bitBlockWordCount * blockCount l.length)).map fun k =>
      Word.ofBools l (64 * k)
    blocks_aligned := by
      rw [length_map, length_range]
      exact Nat.dvd_mul_right _ _ }
  snd := l.length

/-- Overwrite the bit at an index that the blocks hold. -/
def assignBit (v : AlignedBitVec) (i : ℕ) (value : Bool) : AlignedBitVec where
  words := v.words.modify (i / 64) fun w => w.assignIndex (i % 64) value
  blocks_aligned := by
    rw [length_modify]
    exact v.blocks_aligned

/-- Overwrite the bit at an index; `none` is an index beyond the blocks. -/
def assignIndex (v : AlignedBitVec) (i : ℕ) (value : Bool) : Option AlignedBitVec :=
  if i < v.bitLen then some (v.assignBit i value) else none

def clearBits (v : AlignedBitVec) : AlignedBitVec where
  words := v.words.map fun _ => 0
  blocks_aligned := by
    rw [length_map]
    exact v.blocks_aligned

/-- Combine the blocks that both vectors have. -/
def zipAssign (f : Word → Word → Word) (v other : AlignedBitVec) : AlignedBitVec where
  words := zipAssignWords f v.words other.words
  blocks_aligned := by
    rw [length_zipAssignWords]
    exact v.blocks_aligned

/-- Copy the blocks that both vectors have. -/
def assign : AlignedBitVec → AlignedBitVec → AlignedBitVec :=
  zipAssign fun _ o => o

/-- Intersect the blocks that both vectors have. -/
def bitandAssign : AlignedBitVec → AlignedBitVec → AlignedBitVec :=
  zipAssign fun w o => w &&& o

/-- Unite the blocks that both vectors have. -/
def bitorAssign : AlignedBitVec → AlignedBitVec → AlignedBitVec :=
  zipAssign fun w o => w ||| o

/-- Resize to a number of bits: append zero blocks, or copy bit by bit into fewer blocks; nothing
happens when the blocks hold exactly that many bits. -/
def resize (v : AlignedBitVec) (newLength : ℕ) : AlignedBitVec :=
  if newLength = v.bitLen then v
  else if v.bitLen < newLength then
    { words := v.words ++
        List.replicate (bitBlockWordCount * blockCount newLength - v.words.length) 0
      blocks_aligned := by
        rw [length_append, length_replicate]
        refine (Nat.dvd_add_iff_right v.blocks_aligned).mp ?_
        exact Nat.dvd_sub (Nat.dvd_mul_right _ _) v.blocks_aligned }
  else
    (List.range newLength).foldl (fun newVec j => newVec.assignBit j (v.toBits.index j))
      (zeros newLength)

/-- Shift the bits towards the first one. -/
def shlWords (words : List Word) (count : ℕ) : List Word :=
  if count = 0 ∨ words.length = 0 then words
  else if 64 * words.length ≤ count then words.map fun _ => 0
  else
    let wordShift := count / 64
    let bitShift := count % 64
    if bitShift = 0 then words.drop wordShift ++ List.replicate wordShift 0
    else shiftWords bitShift (words.drop wordShift) ++ List.replicate wordShift 0

@[simp]
theorem length_shlWords (words : List Word) (count : ℕ) :
    (shlWords words count).length = words.length := by
  unfold shlWords
  dsimp only
  split_ifs with _ hlarge
  · rfl
  · exact length_map _
  · rw [length_append, length_drop, length_replicate]
    omega
  · rw [length_append, length_shiftWords, length_drop, length_replicate]
    omega

/-- The blocks from the one that holds the first bit of a range to the one that holds the last, with
the first bit shifted to the front; `none` is a failed assertion. -/
def extract (v : AlignedBitVec) (start stop : ℕ) : Option AlignedBitVec :=
  if start ≤ stop ∧ stop ≤ v.bitLen then
    let startBlock := start / bitsPerBlock
    let stopBlock := blockCount stop
    some {
      words := shlWords ((v.words.drop (bitBlockWordCount * startBlock)).take
        (bitBlockWordCount * (stopBlock - startBlock))) (start % bitsPerBlock)
      blocks_aligned := by
        rw [length_shlWords, length_take, length_drop]
        have hlength : bitBlockWordCount ∣ v.words.length - bitBlockWordCount * startBlock :=
          Nat.dvd_sub v.blocks_aligned (Nat.dvd_mul_right _ _)
        rcases le_total (bitBlockWordCount * (stopBlock - startBlock))
          (v.words.length - bitBlockWordCount * startBlock) with h | h
        · rw [min_eq_left h]
          exact Nat.dvd_mul_right _ _
        · rw [min_eq_right h]
          exact hlength }
  else none

section Stored

variable {v other : AlignedBitVec}

theorem index_toBits_zeros (length i : ℕ) : (zeros length).toBits.index i = false := by
  rw [toBits, zeros, ofWords_replicate, index_zero]

theorem le_bitsPerBlock_mul_blockCount (length : ℕ) :
    length ≤ 64 * (bitBlockWordCount * blockCount length) := by
  unfold blockCount bitsPerBlock bitBlockWordCount
  split_ifs <;> omega

theorem index_toBits_withLengthFromIter (l : List Bool) (i : ℕ) :
    (withLengthFromIter l).1.toBits.index i = l.getD i false := by
  rw [toBits, index_ofWords, withLengthFromIter]
  have hpos : 64 * (i / 64) + i % 64 = i := by omega
  rcases lt_or_ge (i / 64) (bitBlockWordCount * blockCount l.length) with hi | hi
  · rw [getD_eq_getElem _ _ (by simpa using hi)]
    simp only [getElem_map, getElem_range]
    rw [Word.getLsbD_ofBools l _ (mod_lt i (by decide)), hpos]
  · have hlength := le_bitsPerBlock_mul_blockCount l.length
    rw [getD_eq_default _ _ (by simpa using hi), getD_eq_default _ _ (by omega)]
    simp

theorem length_words_assignBit (v : AlignedBitVec) (i : ℕ) (value : Bool) :
    (v.assignBit i value).words.length = v.words.length :=
  length_modify _ _ _

theorem index_toBits_assignBit {i : ℕ} (hi : i < v.bitLen) (value : Bool) (j : ℕ) :
    (v.assignBit i value).toBits.index j = if j = i then value else v.toBits.index j := by
  have hlength : i / 64 < v.words.length := by
    unfold bitLen at hi
    omega
  rw [toBits, index_ofWords, toBits, index_ofWords, assignBit]
  simp only [getD_eq_getElem?_getD, getElem?_modify]
  rcases eq_or_ne (i / 64) (j / 64) with hword | hword
  · have hiff : j % 64 = i % 64 ↔ j = i := by omega
    have hget : v.words[j / 64]? = some v.words[j / 64] := by rw [getElem?_eq_getElem]
    simp only [hword, if_true, hget, Option.map_eq_map, Option.map_some, Option.getD_some]
    rw [Word.getLsbD_assignIndex _ _ (mod_lt j (by decide)), if_congr hiff rfl rfl]
  · have hne : j ≠ i := fun heq => hword (by rw [heq])
    simp [hword, hne]

theorem index_toBits_clearBits (v : AlignedBitVec) (i : ℕ) :
    v.clearBits.toBits.index i = false := by
  have hwords : v.clearBits.words = List.replicate v.words.length 0 :=
    map_const'
  rw [toBits, hwords, ofWords_replicate, index_zero]

theorem index_toBits_zipAssign {f : Word → Word → Word} {g : Bool → Bool → Bool}
    (hf : f 0#64 0#64 = 0#64)
    (hg : ∀ w o j, j < 64 → (f w o).getLsbD j = g (w.getLsbD j) (o.getLsbD j))
    (hlength : v.words.length = other.words.length) (i : ℕ) :
    (zipAssign f v other).toBits.index i = g (v.toBits.index i) (other.toBits.index i) := by
  rw [toBits, index_ofWords, zipAssign, getD_zipAssignWords hf hlength,
    hg _ _ _ (mod_lt i (by decide)), ← index_ofWords, ← index_ofWords]
  rfl

theorem index_toBits_resize (v : AlignedBitVec) (newLength i : ℕ) :
    (v.resize newLength).toBits.index i =
      (v.toBits.index i && (decide (v.bitLen ≤ newLength) || decide (i < newLength))) := by
  unfold resize
  split_ifs with hsame hgrow
  · rw [hsame, decide_eq_true le_rfl, Bool.true_or, Bool.and_true]
  · rw [decide_eq_true hgrow.le, Bool.true_or, Bool.and_true, toBits, toBits]
    rw [index_ofWords, index_ofWords, getD_eq_getElem?_getD, getD_eq_getElem?_getD, getElem?_append]
    split_ifs with hi
    · rfl
    · rw [getElem?_replicate, getElem?_eq_none (by omega)]
      split_ifs <;> rfl
  · have hfit : newLength ≤ (zeros newLength).bitLen := by
      rw [bitLen, zeros, length_replicate]
      exact le_bitsPerBlock_mul_blockCount newLength
    have hloop : ∀ k, k ≤ newLength →
        ((List.range k).foldl (fun newVec j => newVec.assignBit j (v.toBits.index j))
          (zeros newLength)).words.length = (zeros newLength).words.length ∧
        ∀ i, ((List.range k).foldl (fun newVec j => newVec.assignBit j (v.toBits.index j))
          (zeros newLength)).toBits.index i = (v.toBits.index i && decide (i < k)) := by
      intro k
      induction k with
      | zero =>
        intro _
        refine ⟨rfl, fun i => ?_⟩
        rw [range_zero, foldl_nil, index_toBits_zeros]
        simp
      | succ k ih =>
        intro hk
        obtain ⟨hwords, hindex⟩ := ih (by omega)
        rw [range_succ, foldl_append, foldl_cons, foldl_nil]
        refine ⟨(length_words_assignBit _ _ _).trans hwords, fun i => ?_⟩
        rw [index_toBits_assignBit (by rw [bitLen, hwords]; exact hk.trans hfit), hindex]
        rcases lt_trichotomy i k with hi | rfl | hi
        · simp [hi.ne, hi, lt_succ_of_lt hi]
        · simp
        · simp [hi.ne', show ¬ i < k by omega, show ¬ i < k + 1 by omega]
    rw [(hloop newLength le_rfl).2 i, decide_eq_false (by omega : ¬ v.bitLen ≤ newLength),
      Bool.false_or]

theorem length_words_resize (v : AlignedBitVec) (newLength : ℕ) :
    (v.resize newLength).words.length = bitBlockWordCount * blockCount newLength := by
  obtain ⟨blocks, hblocks⟩ := v.blocks_aligned
  unfold resize
  split_ifs with hsame hgrow
  · rw [hsame, bitLen, hblocks]
    unfold blockCount bitsPerBlock
    rw [← mul_assoc, Nat.mul_mod_right, if_pos rfl, add_zero, Nat.mul_div_cancel_left _ (by decide)]
  · have hfit := le_bitsPerBlock_mul_blockCount newLength
    rw [length_append, length_replicate]
    unfold bitLen at hgrow
    omega
  · have hloop : ∀ l : List ℕ,
        (l.foldl (fun newVec j => newVec.assignBit j (v.toBits.index j))
          (zeros newLength)).words.length = (zeros newLength).words.length := by
      intro l
      refine List.foldlRecOn (motive := fun newVec : AlignedBitVec =>
        newVec.words.length = (zeros newLength).words.length) _ _ rfl fun newVec h j _ => ?_
      exact (length_words_assignBit _ _ _).trans h
    rw [hloop, zeros, length_replicate]

theorem ofWords_shlWords (words : List Word) (count : ℕ) :
    ofWords (shlWords words count) = shiftDown count (ofWords words) := by
  unfold shlWords
  dsimp only
  split_ifs with htrivial hlarge haligned
  · rcases htrivial with rfl | hempty
    · refine ext_index fun i => ?_
      rw [index_shiftDown, zero_add]
    · obtain rfl := length_eq_zero_iff.mp hempty
      refine ext_index fun i => ?_
      simp [ofWords]
  · rw [map_const', ofWords_replicate]
    refine ext_index fun i => ?_
    rw [index_shiftDown, index_zero]
    exact ((below_ofWords words).index_eq_false (by omega)).symm
  · have hcount : 64 * (count / 64) = count := by omega
    rw [ofWords_append_replicate, ofWords_drop, hcount]
  · have hsplit : ∀ i, 64 * (count / 64) + (count % 64 + i) = count + i := by omega
    rw [ofWords_append_replicate,
      ofWords_shiftWords (pos_of_ne_zero haligned) (mod_lt _ (by decide)), ofWords_drop]
    refine ext_index fun i => ?_
    rw [index_shiftDown, index_shiftDown, index_shiftDown, hsplit]

theorem extract_spec {start stop : ℕ} (hrange : start ≤ stop ∧ stop ≤ v.bitLen) :
    ∃ v', v.extract start stop = some v' ∧
      v'.words.length = bitBlockWordCount * (blockCount stop - start / bitsPerBlock) ∧
      ∀ i, v'.toBits.index i = (v.toBits.index (start + i) &&
        decide (start + i < 64 * (bitBlockWordCount * blockCount stop))) := by
  obtain ⟨blocks, hblocks⟩ := v.blocks_aligned
  have hstop : blockCount stop ≤ blocks := by
    have hle : stop ≤ 64 * (bitBlockWordCount * blocks) := hblocks ▸ hrange.2
    unfold bitBlockWordCount at hle
    unfold blockCount bitsPerBlock bitBlockWordCount
    split_ifs <;> omega
  have hstart : 64 * (bitBlockWordCount * (start / bitsPerBlock)) + start % bitsPerBlock =
    start := by
    rw [← mul_assoc]
    exact div_add_mod start bitsPerBlock
  refine ⟨_, if_pos hrange, ?_, fun i => ?_⟩
  · rw [length_shlWords, length_take, length_drop, hblocks, ← Nat.mul_sub]
    exact min_eq_left (Nat.mul_le_mul_left _ (Nat.sub_le_sub_right hstop _))
  · rw [toBits, ofWords_shlWords, ofWords_take, index_shiftDown, index_low, ofWords_drop,
      index_shiftDown, ← Nat.add_assoc, hstart, Bool.and_comm]
    congr 2
    refine propext ?_
    rw [Nat.mul_sub, Nat.mul_sub]
    omega

end Stored

end AlignedBitVec

end QdkEc
