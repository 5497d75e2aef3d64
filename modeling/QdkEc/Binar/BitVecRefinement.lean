import QdkEc.Binar.BitVecStorage

/-!
# Bit vectors as lists of booleans

This module models `BitVec`, an aligned vector with a number of bits, its
observers and the programs of its operations.  The observers of a vector are
those of a list exactly when the vector is stored as one collected from that
list.  All operations keep this form but for extraction, which leaves the bits
behind the range in their block.
-/

namespace QdkEc

open AlignedBitVec List Bits

/-- The inner value of a `BitVec`. -/
structure BitsTruncated where
  bits : AlignedBitVec
  bitLength : ℕ
deriving DecidableEq

variable {g : Bool → Bool → Bool}

namespace BitsTruncated

/-- The vector collected from a list of bits. -/
def fromIter (l : List Bool) : BitsTruncated where
  bits := (withLengthFromIter l).1
  bitLength := (withLengthFromIter l).2

def zeros (length : ℕ) : BitsTruncated where
  bits := AlignedBitVec.zeros length
  bitLength := length

/-- A vector of ones; the bits of the blocks beyond its length are cleared. -/
def ones (length : ℕ) : BitsTruncated where
  bits := (List.range' length ((AlignedBitVec.ones length).bitLen - length)).foldl
    (fun bits index => bits.assignBit index false) (AlignedBitVec.ones length)
  bitLength := length

/-- Resize the blocks and set the length. -/
def resize (v : BitsTruncated) (newLength : ℕ) : BitsTruncated where
  bits := v.bits.resize newLength
  bitLength := newLength

/-- The bits of a range; `none` is a failed assertion. -/
def extract (v : BitsTruncated) (start stop : ℕ) :
    Option BitsTruncated := do
  let bits ← v.bits.extract start stop
  some { bits := bits, bitLength := stop - start }

/-- Overwrite the bit at an index; `none` is a failed assertion. -/
def assignIndex (v : BitsTruncated) (i : ℕ) (value : Bool) : Option BitsTruncated :=
  if i < v.bitLength then do
    let bits ← v.bits.assignIndex i value
    some { v with bits := bits }
  else none

/-- Flip the bit at an index; `none` is a failed assertion. -/
def negateIndex (v : BitsTruncated) (i : ℕ) : Option BitsTruncated :=
  if i < v.bitLength then do
    let bits ← v.bits.negateIndex i
    some { v with bits := bits }
  else none

def clearBits (v : BitsTruncated) : BitsTruncated :=
  { v with bits := v.bits.clearBits }

/-- Combine with the blocks of a vector of the same length; `none` is a failed assertion. -/
def pairAssign (f : AlignedBitVec → AlignedBitVec → AlignedBitVec) (v other : BitsTruncated) :
    Option BitsTruncated :=
  if v.bitLength = other.bitLength then some { v with bits := f v.bits other.bits } else none

/-- Copy the blocks. -/
def assign : BitsTruncated → BitsTruncated → Option BitsTruncated :=
  pairAssign AlignedBitVec.assign

/-- Add the blocks. -/
def bitxorAssign : BitsTruncated → BitsTruncated → Option BitsTruncated :=
  pairAssign AlignedBitVec.bitxorAssign

/-- Intersect the blocks. -/
def bitandAssign : BitsTruncated → BitsTruncated → Option BitsTruncated :=
  pairAssign AlignedBitVec.bitandAssign

/-- Unite the blocks. -/
def bitorAssign : BitsTruncated → BitsTruncated → Option BitsTruncated :=
  pairAssign AlignedBitVec.bitorAssign

/-- The number of bits. -/
def len (v : BitsTruncated) : ℕ :=
  v.bitLength

/-- The bit at an index; `none` is a failed assertion. -/
def index (v : BitsTruncated) (i : ℕ) : Option Bool :=
  if i < v.bitLength then v.bits.index i else none

/-- The number of ones in the blocks. -/
def weight (v : BitsTruncated) : ℕ :=
  v.bits.toBits.support.length

def parity (v : BitsTruncated) : Bool :=
  v.bits.toBits.parity

/-- All words of the blocks are zero. -/
def isZero (v : BitsTruncated) : Bool :=
  v.bits.words.all fun w => w == 0

/-- The indices of the ones in the blocks, as many as there are bits. -/
def support (v : BitsTruncated) : List ℕ :=
  v.bits.support.take v.bitLength

/-- The parity of the common ones; `none` is a failed assertion. -/
def dot (v other : BitsTruncated) : Option Bool :=
  if v.bitLength = other.bitLength then some (v.bits.dot other.bits) else none

/-- The lengths and the blocks are equal. -/
def eq (v other : BitsTruncated) : Bool :=
  v.bitLength == other.bitLength && v.bits.words == other.bits.words

/-- What is fed to the hasher: the length and the blocks. -/
def hashInput (v : BitsTruncated) : ℕ × List Word :=
  (v.bitLength, v.bits.words)

/-- The observers report those of a list of booleans. -/
structure Observes (v : BitsTruncated) (l : List Bool) : Prop where
  len_eq : v.len = l.length
  index_eq : ∀ i, v.index i = l[i]?
  weight_eq : v.weight = l.count true
  parity_eq : v.parity = (l.count true % 2 == 1)
  isZero_eq : v.isZero = l.all fun b => !b
  support_eq : v.support = (List.range l.length).filter fun i => l.getD i false
  dot_eq : ∀ o : List Bool, v.dot (fromIter o) =
    if l.length = o.length then some ((List.zipWith (· && ·) l o).count true % 2 == 1) else none
  eq_eq : ∀ o : List Bool, v.eq (fromIter o) = decide (l = o)
  hashInput_eq : ∀ o : List Bool, v.hashInput = (fromIter o).hashInput ↔ l = o

/-- The blocks are those for the length of the list and hold its bits and no others. -/
structure Stores (v : BitsTruncated) (l : List Bool) : Prop where
  bitLength_eq : v.bitLength = l.length
  length_words : v.bits.words.length = bitBlockWordCount * blockCount l.length
  index_toBits : ∀ i, v.bits.toBits.index i = l.getD i false

theorem stores_fromIter (l : List Bool) : (fromIter l).Stores l where
  bitLength_eq := rfl
  length_words := by simp [fromIter, withLengthFromIter]
  index_toBits := index_toBits_withLengthFromIter l

theorem stores_iff {v : BitsTruncated} {l : List Bool} : v.Stores l ↔ v = fromIter l := by
  constructor
  · intro h
    have hl := stores_fromIter l
    have hwords : v.bits.words = (fromIter l).bits.words := by
      refine words_eq_of_ofWords_eq (h.length_words.trans hl.length_words.symm) ?_
      exact ext_index fun i => (h.index_toBits i).trans (hl.index_toBits i).symm
    obtain ⟨⟨words, _⟩, bitLength⟩ := v
    obtain rfl : words = _ := hwords
    obtain rfl : bitLength = _ := h.bitLength_eq
    rfl
  · rintro rfl
    exact stores_fromIter l

theorem fromIter_injective : Function.Injective fromIter := by
  intro l o h
  have hl := stores_fromIter l
  have ho := stores_fromIter o
  rw [h] at hl
  have hlength : l.length = o.length := hl.bitLength_eq.symm.trans ho.bitLength_eq
  refine ext_getElem hlength fun i hi hi' => ?_
  have hindex := (hl.index_toBits i).symm.trans (ho.index_toBits i)
  rwa [getD_eq_getElem _ _ hi, getD_eq_getElem _ _ hi'] at hindex

theorem eq_eq_true_iff {v other : BitsTruncated} : v.eq other = true ↔ v = other := by
  obtain ⟨⟨words, _⟩, bitLength⟩ := v
  obtain ⟨⟨words', _⟩, bitLength'⟩ := other
  simp [eq, and_comm]

theorem hashInput_eq_iff {v other : BitsTruncated} : v.hashInput = other.hashInput ↔ v = other := by
  obtain ⟨⟨words, _⟩, bitLength⟩ := v
  obtain ⟨⟨words', _⟩, bitLength'⟩ := other
  simp [hashInput, and_comm]

theorem count_true_eq (l : List Bool) :
    l.count true = ((List.range l.length).filter fun i => l.getD i false).length := by
  induction l with
  | nil => rfl
  | cons b l ih =>
    rw [length_cons, range_succ_eq_map, filter_cons, filter_map, count_cons, ih]
    cases b <;> simp [Function.comp_def]

theorem words_all_zero_iff {ws : List Word} :
    (ws.all fun w => w == 0) = true ↔ ∀ i, (ofWords ws).index i = false := by
  constructor
  · intro h i
    have hws : ws = List.replicate ws.length 0 := by
      refine eq_replicate_iff.mpr ⟨rfl, fun w hw => ?_⟩
      simpa using all_eq_true.mp h w hw
    rw [hws, ofWords_replicate, index_zero]
  · intro h
    have hbits : ofWords ws = ofWords (List.replicate ws.length 0) := by
      rw [ofWords_replicate]
      exact ext_index fun i => (h i).trans (index_zero i).symm
    rw [words_eq_of_ofWords_eq (by simp) hbits]
    refine all_eq_true.mpr fun w hw => ?_
    rw [eq_of_mem_replicate hw]
    rfl

theorem all_not_iff {l : List Bool} : (l.all fun b => !b) = true ↔ ∀ i, l.getD i false = false := by
  rw [all_eq_true]
  constructor
  · intro h i
    rcases Nat.lt_or_ge i l.length with hi | hi
    · rw [getD_eq_getElem _ _ hi]
      simpa using h _ (getElem_mem hi)
    · exact getD_eq_default _ _ hi
  · intro h b hb
    obtain ⟨i, hi, rfl⟩ := mem_iff_getElem.mp hb
    have hindex := h i
    rw [getD_eq_getElem _ _ hi] at hindex
    simp [hindex]

theorem getD_zipWith (hg : g false false = false) {l o : List Bool}
    (hlength : l.length = o.length) (i : ℕ) :
    (List.zipWith g l o).getD i false = g (l.getD i false) (o.getD i false) := by
  rcases Nat.lt_or_ge i l.length with hi | hi
  · have hi' : i < o.length := hlength ▸ hi
    rw [getD_eq_getElem _ _ hi, getD_eq_getElem _ _ hi',
      getD_eq_getElem _ _ (by simp [hi, hi']), getElem_zipWith]
  · have hlen : (List.zipWith g l o).length = l.length := by
      rw [length_zipWith, ← hlength, min_self]
    rw [getD_eq_default _ _ (hlen.trans_le hi), getD_eq_default _ _ hi,
      getD_eq_default _ _ (hlength.symm.trans_le hi), hg]

section Stores

variable {v : BitsTruncated} {l : List Bool} (h : v.Stores l)

include h

theorem Stores.le_bitLen : l.length ≤ v.bits.bitLen := by
  rw [bitLen, h.length_words]
  exact le_bitsPerBlock_mul_blockCount l.length

theorem Stores.toBits_below : v.bits.toBits.Below l.length := by
  rw [below_iff]
  intro i hi
  rw [h.index_toBits, getD_eq_default _ _ hi]

theorem Stores.support_toBits :
    v.bits.toBits.support = (List.range l.length).filter fun i => l.getD i false := by
  rw [h.toBits_below.support_eq]
  congr 1
  funext i
  exact h.index_toBits i

theorem Stores.observes : v.Observes l where
  len_eq := h.bitLength_eq
  index_eq i := by
    have hbound := h.le_bitLen
    rw [index, h.bitLength_eq, index_eq, h.index_toBits]
    split_ifs with hi
    · rw [getD_eq_getElem _ _ hi, getElem?_eq_getElem hi]
    · omega
    · rw [getElem?_eq_none (by omega)]
  weight_eq := by rw [weight, h.support_toBits, count_true_eq]
  parity_eq := by rw [parity, Bits.parity, h.support_toBits, count_true_eq]
  isZero_eq := by
    rw [Bool.eq_iff_iff, isZero, words_all_zero_iff, all_not_iff]
    exact forall_congr' fun i => by rw [← h.index_toBits]; rfl
  support_eq := by
    rw [support, AlignedBitVec.support, h.support_toBits, h.bitLength_eq]
    exact take_of_length_le ((length_filter_le _ _).trans_eq length_range)
  dot_eq o := by
    have ho := stores_fromIter o
    rw [dot, h.bitLength_eq, ho.bitLength_eq]
    split_ifs with hlength
    · have hzip : (inter v.bits.toBits (fromIter o).bits.toBits).support =
          (List.range (List.zipWith (· && ·) l o).length).filter
            fun i => (List.zipWith (· && ·) l o).getD i false := by
        have hbelow : (inter v.bits.toBits (fromIter o).bits.toBits).Below l.length := by
          rw [below_iff]
          intro i hi
          rw [index_inter, h.toBits_below.index_eq_false hi, Bool.false_and]
        rw [hbelow.support_eq, length_zipWith, ← hlength, min_self]
        congr 1
        funext i
        rw [index_inter, h.index_toBits, ho.index_toBits, getD_zipWith rfl hlength]
      rw [dot_eq, Bits.dot, Bits.parity, hzip, count_true_eq]
    · rfl
  eq_eq o := by
    obtain rfl := stores_iff.mp h
    rw [Bool.eq_iff_iff, eq_eq_true_iff, decide_eq_true_iff]
    exact fromIter_injective.eq_iff
  hashInput_eq o := by
    obtain rfl := stores_iff.mp h
    rw [hashInput_eq_iff]
    exact fromIter_injective.eq_iff

end Stores

theorem observes_iff {v : BitsTruncated} {l : List Bool} : v.Observes l ↔ v = fromIter l := by
  constructor
  · intro h
    have heq := h.eq_eq l
    rw [decide_eq_true rfl] at heq
    exact eq_eq_true_iff.mp heq
  · rintro rfl
    exact (stores_fromIter l).observes

section Operations

variable {v : BitsTruncated} {l : List Bool}

theorem stores_zeros (n : ℕ) : (zeros n).Stores (List.replicate n false) where
  bitLength_eq := length_replicate.symm
  length_words := by simp [zeros, AlignedBitVec.zeros]
  index_toBits i := by
    have hzero : (zeros n).bits.toBits.index i = false := index_toBits_zeros n i
    rw [hzero, getD_eq_getElem?_getD, getElem?_replicate]
    split_ifs <;> rfl

theorem index_foldl_assignBit_false (indexes : List ℕ) {bits : AlignedBitVec}
    (hindexes : ∀ j ∈ indexes, j < bits.bitLen) :
    (indexes.foldl (fun bits index => bits.assignBit index false) bits).words.length =
        bits.words.length ∧
      ∀ i, (indexes.foldl (fun bits index => bits.assignBit index false) bits).toBits.index i =
        (bits.toBits.index i && !decide (i ∈ indexes)) := by
  induction indexes generalizing bits with
  | nil => simp
  | cons j indexes ih =>
    have hwords := length_words_assignBit bits j false
    have hrest : ∀ k ∈ indexes, k < (bits.assignBit j false).bitLen := by
      intro k hk
      rw [bitLen, hwords]
      exact hindexes k (mem_cons_of_mem _ hk)
    obtain ⟨hlength, hindex⟩ := ih hrest
    refine ⟨hlength.trans hwords, fun i => ?_⟩
    rw [foldl_cons, hindex, index_toBits_assignBit (hindexes j mem_cons_self)]
    rcases eq_or_ne i j with rfl | hij
    · simp
    · simp [hij]

theorem index_toBits_ones (n i : ℕ) :
    (AlignedBitVec.ones n).toBits.index i = decide (i < (AlignedBitVec.ones n).bitLen) := by
  have hmod : i % 64 < 64 := Nat.mod_lt i (by decide)
  have hiff : i / 64 < bitBlockWordCount * blockCount n ↔
      i < 64 * (bitBlockWordCount * blockCount n) := by
    omega
  rw [toBits, index_ofWords, bitLen, AlignedBitVec.ones, length_replicate,
    getD_eq_getElem?_getD, getElem?_replicate, if_congr hiff rfl rfl]
  split_ifs with hi
  · rw [decide_eq_true hi, Option.getD_some, BitVec.getLsbD_allOnes, decide_eq_true hmod]
  · rw [decide_eq_false hi, Option.getD_none]
    exact BitVec.getLsbD_zero

theorem stores_ones (n : ℕ) : (ones n).Stores (List.replicate n true) := by
  have hle : n ≤ (AlignedBitVec.ones n).bitLen := by
    rw [bitLen, AlignedBitVec.ones, length_replicate]
    exact le_bitsPerBlock_mul_blockCount n
  have hindexes : ∀ j ∈ List.range' n ((AlignedBitVec.ones n).bitLen - n),
      j < (AlignedBitVec.ones n).bitLen := by
    intro j hj
    have := mem_range'_1.mp hj
    omega
  obtain ⟨hwords, hindex⟩ := index_foldl_assignBit_false _ hindexes
  refine ⟨length_replicate.symm, ?_, fun i => ?_⟩
  · rw [length_replicate]
    exact hwords.trans length_replicate
  · have hones : (ones n).bits.toBits.index i = _ := hindex i
    rw [hones, index_toBits_ones, getD_eq_getElem?_getD, getElem?_replicate]
    split_ifs with hi
    · have hout : ¬ i ∈ List.range' n ((AlignedBitVec.ones n).bitLen - n) := by
        rw [mem_range'_1]
        omega
      simp [hout, hi.trans_le hle]
    · rcases Nat.lt_or_ge i (AlignedBitVec.ones n).bitLen with hin | hin
      · have hmem : i ∈ List.range' n ((AlignedBitVec.ones n).bitLen - n) := by
          rw [mem_range'_1]
          omega
        simp [hmem]
      · simp [hin]

theorem Stores.resize (h : v.Stores l) (n : ℕ) :
    (v.resize n).Stores (l.take n ++ List.replicate (n - l.length) false) where
  bitLength_eq := by
    rw [length_append, length_take, length_replicate]
    exact (by omega : n = min n l.length + (n - l.length))
  length_words := by
    have hlength : (l.take n ++ List.replicate (n - l.length) false).length = n := by
      rw [length_append, length_take, length_replicate]
      omega
    rw [hlength]
    exact length_words_resize v.bits n
  index_toBits i := by
    have hbound := h.le_bitLen
    have hresize : (v.resize n).bits.toBits.index i = _ := index_toBits_resize v.bits n i
    rw [hresize, h.index_toBits, getD_eq_getElem?_getD, getD_eq_getElem?_getD,
      getElem?_append, length_take]
    split_ifs with hi
    · have hin : i < n := by omega
      rw [getElem?_take_of_lt hin, decide_eq_true hin, Bool.or_true, Bool.and_true]
    · rw [getElem?_replicate]
      rcases Nat.lt_or_ge i l.length with hil | hil
      · rw [decide_eq_false (by omega : ¬ v.bits.bitLen ≤ n), decide_eq_false (by omega : ¬ i < n)]
        split_ifs <;> simp
      · rw [getElem?_eq_none hil]
        split_ifs <;> simp

theorem Stores.assignIndex (h : v.Stores l) {i : ℕ} (hi : i < l.length) (value : Bool) :
    ∃ v', v.assignIndex i value = some v' ∧ v'.Stores (l.set i value) := by
  have hbound := h.le_bitLen
  have hassign : v.bits.assignIndex i value = some (v.bits.assignBit i value) :=
    if_pos (hi.trans_le hbound)
  refine ⟨{ v with bits := v.bits.assignBit i value }, ?_, ?_, ?_, fun j => ?_⟩
  · rw [BitsTruncated.assignIndex, h.bitLength_eq, if_pos hi, hassign]
    rfl
  · rw [length_set]
    exact h.bitLength_eq
  · rw [length_set]
    exact (length_words_assignBit _ _ _).trans h.length_words
  · refine (index_toBits_assignBit (hi.trans_le hbound) value j).trans ?_
    rw [h.index_toBits, getD_eq_getElem?_getD, getD_eq_getElem?_getD, getElem?_set]
    rcases eq_or_ne j i with rfl | hij
    · simp [hi]
    · simp [hij, hij.symm]

theorem Stores.negateIndex (h : v.Stores l) {i : ℕ} (hi : i < l.length) :
    ∃ v', v.negateIndex i = some v' ∧ v'.Stores (l.modify i not) := by
  have hbound := h.le_bitLen
  obtain ⟨bits, hbits⟩ : ∃ bits, v.bits.negateIndex i = some bits := by
    rw [← Option.ne_none_iff_exists']
    intro hnone
    have hle := negateIndex_eq_none_iff.mp hnone
    omega
  obtain ⟨hindex, hlength⟩ := toBits_negateIndex hbits
  refine ⟨{ v with bits := bits }, ?_, ?_, ?_, fun j => ?_⟩
  · rw [BitsTruncated.negateIndex, h.bitLength_eq, if_pos hi, hbits]
    rfl
  · rw [length_modify]
    exact h.bitLength_eq
  · rw [length_modify, ← h.length_words]
    exact Nat.eq_of_mul_eq_mul_left (by decide) hlength
  · rw [hindex, index_add, index_unit, h.index_toBits, getD_eq_getElem?_getD,
      getD_eq_getElem?_getD, getElem?_modify]
    rcases eq_or_ne i j with rfl | hij
    · simp [hi]
    · simp [hij]

theorem Stores.clearBits (h : v.Stores l) : v.clearBits.Stores (l.map fun _ => false) where
  bitLength_eq := by
    rw [length_map]
    exact h.bitLength_eq
  length_words := by
    rw [length_map]
    exact (length_map _).trans h.length_words
  index_toBits i := by
    have hclear : v.clearBits.bits.toBits.index i = false := index_toBits_clearBits v.bits i
    rw [hclear, getD_eq_getElem?_getD, getElem?_map]
    cases l[i]? <;> rfl

theorem Stores.pairAssign {other : BitsTruncated} {o : List Bool}
    {f : AlignedBitVec → AlignedBitVec → AlignedBitVec} (hg : g false false = false)
    (hf : ∀ a b : AlignedBitVec, a.words.length = b.words.length →
      (f a b).words.length = a.words.length ∧
        ∀ i, (f a b).toBits.index i = g (a.toBits.index i) (b.toBits.index i)) (h : v.Stores l)
    (ho : other.Stores o) (hlength : l.length = o.length) :
    ∃ v', pairAssign f v other = some v' ∧ v'.Stores (List.zipWith g l o) := by
  have hlen : (List.zipWith g l o).length = l.length := by rw [length_zipWith, ← hlength, min_self]
  obtain ⟨hwords, hindex⟩ := hf v.bits other.bits (by
    rw [h.length_words, ho.length_words, hlength])
  refine ⟨{ v with bits := f v.bits other.bits }, ?_, ?_, ?_, fun i => ?_⟩
  · exact if_pos (by rw [h.bitLength_eq, ho.bitLength_eq, hlength])
  · rw [hlen]
    exact h.bitLength_eq
  · rw [hlen]
    exact hwords.trans h.length_words
  · rw [getD_zipWith hg hlength, ← h.index_toBits, ← ho.index_toBits]
    exact hindex i

/-- The bits between the end of a range and the end of its block are zero, and as many blocks are
cut out as the range needs. -/
def ExtractExact (l : List Bool) (start stop : ℕ) : Prop :=
  (∀ i, stop ≤ i → i < bitsPerBlock * blockCount stop → l.getD i false = false) ∧
    blockCount stop - start / bitsPerBlock = blockCount (stop - start)

theorem Stores.extract_iff (h : v.Stores l) {start stop : ℕ} (hle : start ≤ stop)
    (hstop : stop ≤ l.length) :
    (∃ v', v.extract start stop = some v' ∧ v'.Stores ((l.drop start).take (stop - start))) ↔
      ExtractExact l start stop := by
  have hrange : start ≤ stop ∧ stop ≤ v.bits.bitLen := ⟨hle, hstop.trans h.le_bitLen⟩
  obtain ⟨bits, hbits, hlength, hindex⟩ := extract_spec hrange
  have hextract : v.extract start stop = some ⟨bits, stop - start⟩ := by
    rw [BitsTruncated.extract, hbits]
    rfl
  have hslice : ((l.drop start).take (stop - start)).length = stop - start := by
    rw [length_take, length_drop]
    omega
  have hget : ∀ i, ((l.drop start).take (stop - start)).getD i false =
      (decide (i < stop - start) && l.getD (start + i) false) := by
    intro i
    rw [getD_eq_getElem?_getD, getD_eq_getElem?_getD, getElem?_take, getElem?_drop]
    split_ifs with hi <;> simp [hi]
  have hblock : stop ≤ bitsPerBlock * blockCount stop := by
    have hfit := le_bitsPerBlock_mul_blockCount stop
    rwa [← mul_assoc] at hfit
  rw [hextract]
  constructor
  · rintro ⟨v', hv', hstores⟩
    obtain rfl := Option.some_inj.mp hv'
    refine ⟨fun i hi hend => ?_, ?_⟩
    · have hbit := hstores.index_toBits (i - start)
      have hpos : start + (i - start) = i := by omega
      rw [hindex, hget, hpos, h.index_toBits, ← mul_assoc] at hbit
      rw [decide_eq_false (by omega : ¬ i - start < stop - start), Bool.false_and,
        decide_eq_true (show i < 64 * bitBlockWordCount * blockCount stop from hend),
        Bool.and_true] at hbit
      exact hbit
    · have hcount := hstores.length_words
      rw [hlength, hslice] at hcount
      exact Nat.eq_of_mul_eq_mul_left (by decide) hcount
  · rintro ⟨hclear, hcount⟩
    refine ⟨_, rfl, hslice.symm, ?_, fun i => ?_⟩
    · rw [hlength, hslice, hcount]
    · rw [hindex, hget, h.index_toBits, ← mul_assoc, Bool.and_comm]
      rcases Nat.lt_or_ge i (stop - start) with hi | hi
      · have hend : start + i < 64 * bitBlockWordCount * blockCount stop :=
          (by omega : start + i < stop).trans_le hblock
        rw [decide_eq_true hi, decide_eq_true hend]
      · rw [decide_eq_false (by omega : ¬ i < stop - start), Bool.false_and, Bool.and_eq_false_iff]
        rcases Nat.lt_or_ge (start + i) (64 * bitBlockWordCount * blockCount stop) with hend | hend
        · exact Or.inr (hclear _ (by omega) hend)
        · exact Or.inl (decide_eq_false (by omega))

end Operations

end BitsTruncated

/-- A program of public constructors and operations of bit vectors. -/
inductive BitVecProgram where
  | fromIter (l : List Bool)
  | zeros (length : ℕ)
  | ones (length : ℕ)
  | resize (v : BitVecProgram) (newLength : ℕ)
  | extract (v : BitVecProgram) (start stop : ℕ)
  | assignIndex (v : BitVecProgram) (i : ℕ) (value : Bool)
  | negateIndex (v : BitVecProgram) (i : ℕ)
  | clearBits (v : BitVecProgram)
  | assign (v other : BitVecProgram)
  | bitxorAssign (v other : BitVecProgram)
  | bitandAssign (v other : BitVecProgram)
  | bitorAssign (v other : BitVecProgram)

namespace BitVecProgram

open BitsTruncated

/-- Run a program on bit vectors; `none` is a failed assertion. -/
def run : BitVecProgram → Option BitsTruncated
  | fromIter l => some (BitsTruncated.fromIter l)
  | zeros length => some (BitsTruncated.zeros length)
  | ones length => some (BitsTruncated.ones length)
  | resize v newLength => do
      let v ← v.run
      some (v.resize newLength)
  | extract v start stop => do
      let v ← v.run
      v.extract start stop
  | assignIndex v i value => do
      let v ← v.run
      v.assignIndex i value
  | negateIndex v i => do
      let v ← v.run
      v.negateIndex i
  | clearBits v => do
      let v ← v.run
      some v.clearBits
  | assign v other => do
      let v ← v.run
      let other ← other.run
      v.assign other
  | bitxorAssign v other => do
      let v ← v.run
      let other ← other.run
      v.bitxorAssign other
  | bitandAssign v other => do
      let v ← v.run
      let other ← other.run
      v.bitandAssign other
  | bitorAssign v other => do
      let v ← v.run
      let other ← other.run
      v.bitorAssign other

def zipBits (g : Bool → Bool → Bool) (l o : List Bool) : Option (List Bool) :=
  if l.length = o.length then some (List.zipWith g l o) else none

/-- The same program on lists of booleans; `none` is an index or a length out of range. -/
def bits : BitVecProgram → Option (List Bool)
  | fromIter l => some l
  | zeros length => some (List.replicate length false)
  | ones length => some (List.replicate length true)
  | resize v newLength => do
      let l ← v.bits
      some (l.take newLength ++ List.replicate (newLength - l.length) false)
  | extract v start stop => do
      let l ← v.bits
      if start ≤ stop ∧ stop ≤ l.length then some ((l.drop start).take (stop - start)) else none
  | assignIndex v i value => do
      let l ← v.bits
      if i < l.length then some (l.set i value) else none
  | negateIndex v i => do
      let l ← v.bits
      if i < l.length then some (l.modify i not) else none
  | clearBits v => do
      let l ← v.bits
      some (l.map fun _ => false)
  | assign v other => do
      let l ← v.bits
      let o ← other.bits
      zipBits (fun _ b => b) l o
  | bitxorAssign v other => do
      let l ← v.bits
      let o ← other.bits
      zipBits xor l o
  | bitandAssign v other => do
      let l ← v.bits
      let o ← other.bits
      zipBits and l o
  | bitorAssign v other => do
      let l ← v.bits
      let o ← other.bits
      zipBits or l o

def ExtractsExactly : BitVecProgram → Prop
  | fromIter _ | zeros _ | ones _ => True
  | resize v _ | assignIndex v _ _ | negateIndex v _ | clearBits v => v.ExtractsExactly
  | extract v start stop => v.ExtractsExactly ∧ ∀ l, v.bits = some l → ExtractExact l start stop
  | assign v other | bitxorAssign v other => v.ExtractsExactly ∧ other.ExtractsExactly
  | bitandAssign v other | bitorAssign v other => v.ExtractsExactly ∧ other.ExtractsExactly

theorem stores_pairAssign {v other : Option BitsTruncated} {l o : Option (List Bool)}
    {f : AlignedBitVec → AlignedBitVec → AlignedBitVec} (hg : g false false = false)
    (hf : ∀ a b : AlignedBitVec, a.words.length = b.words.length →
      (f a b).words.length = a.words.length ∧
        ∀ i, (f a b).toBits.index i = g (a.toBits.index i) (b.toBits.index i))
    (hv : ∀ l', l = some l' → ∃ v', v = some v' ∧ v'.Stores l')
    (hother : ∀ o', o = some o' → ∃ other', other = some other' ∧ other'.Stores o')
    {result : List Bool} (h : (do let l ← l; let o ← o; zipBits g l o) = some result) :
    ∃ v', (do let v ← v; let other ← other; pairAssign f v other) = some v' ∧ v'.Stores result := by
  obtain ⟨l', hl, h⟩ := Option.bind_eq_some_iff.mp h
  obtain ⟨o', ho, h⟩ := Option.bind_eq_some_iff.mp h
  unfold zipBits at h
  split_ifs at h with hlength
  obtain rfl := Option.some_inj.mp h
  obtain ⟨v', rfl, hv'⟩ := hv l' hl
  obtain ⟨other', rfl, hother'⟩ := hother o' ho
  exact hv'.pairAssign hg hf hother' hlength

theorem stores_run {e : BitVecProgram} {l : List Bool} (hexact : e.ExtractsExactly)
    (h : e.bits = some l) : ∃ v, e.run = some v ∧ v.Stores l := by
  induction e generalizing l with
  | fromIter =>
    obtain rfl := Option.some_inj.mp h
    exact ⟨_, rfl, stores_fromIter _⟩
  | zeros =>
    obtain rfl := Option.some_inj.mp h
    exact ⟨_, rfl, stores_zeros _⟩
  | ones =>
    obtain rfl := Option.some_inj.mp h
    exact ⟨_, rfl, stores_ones _⟩
  | resize e newLength ih =>
    obtain ⟨l', hl, h⟩ := Option.bind_eq_some_iff.mp h
    obtain rfl := Option.some_inj.mp h
    obtain ⟨v, hv, hstores⟩ := ih hexact hl
    exact ⟨_, Option.bind_eq_some_iff.mpr ⟨v, hv, rfl⟩, hstores.resize newLength⟩
  | extract e start stop ih =>
    obtain ⟨l', hl, h⟩ := Option.bind_eq_some_iff.mp h
    split_ifs at h with hrange
    obtain rfl := Option.some_inj.mp h
    obtain ⟨v, hv, hstores⟩ := ih hexact.1 hl
    obtain ⟨v', hv', hstores'⟩ :=
      (hstores.extract_iff hrange.1 hrange.2).mpr (hexact.2 l' hl)
    exact ⟨v', Option.bind_eq_some_iff.mpr ⟨v, hv, hv'⟩, hstores'⟩
  | assignIndex e i value ih =>
    obtain ⟨l', hl, h⟩ := Option.bind_eq_some_iff.mp h
    split_ifs at h with hi
    obtain rfl := Option.some_inj.mp h
    obtain ⟨v, hv, hstores⟩ := ih hexact hl
    obtain ⟨v', hv', hstores'⟩ := hstores.assignIndex hi value
    exact ⟨v', Option.bind_eq_some_iff.mpr ⟨v, hv, hv'⟩, hstores'⟩
  | negateIndex e i ih =>
    obtain ⟨l', hl, h⟩ := Option.bind_eq_some_iff.mp h
    split_ifs at h with hi
    obtain rfl := Option.some_inj.mp h
    obtain ⟨v, hv, hstores⟩ := ih hexact hl
    obtain ⟨v', hv', hstores'⟩ := hstores.negateIndex hi
    exact ⟨v', Option.bind_eq_some_iff.mpr ⟨v, hv, hv'⟩, hstores'⟩
  | clearBits e ih =>
    obtain ⟨l', hl, h⟩ := Option.bind_eq_some_iff.mp h
    obtain rfl := Option.some_inj.mp h
    obtain ⟨v, hv, hstores⟩ := ih hexact hl
    exact ⟨_, Option.bind_eq_some_iff.mpr ⟨v, hv, rfl⟩, hstores.clearBits⟩
  | assign e other ih ihother =>
    refine stores_pairAssign rfl (fun a b hlength => ⟨length_zipAssignWords _ _ _, fun i => ?_⟩)
      (fun _ => ih hexact.1) (fun _ => ihother hexact.2) h
    exact index_toBits_zipAssign (f := fun _ o => o) (g := fun _ b => b) rfl
      (fun _ _ _ _ => rfl) hlength i
  | bitxorAssign e other ih ihother =>
    refine stores_pairAssign rfl (fun a b hlength => ⟨length_bitxorAssignWords _ _, fun i => ?_⟩)
      (fun _ => ih hexact.1) (fun _ => ihother hexact.2) h
    have hbelow : b.toBits.Below a.bitLen := by
      rw [bitLen, hlength]
      exact b.below_toBits
    rw [toBits_bitxorAssign, low_eq_self hbelow, index_add]
  | bitandAssign e other ih ihother =>
    refine stores_pairAssign rfl (fun a b hlength => ⟨length_zipAssignWords _ _ _, fun i => ?_⟩)
      (fun _ => ih hexact.1) (fun _ => ihother hexact.2) h
    exact index_toBits_zipAssign rfl (fun w o j _ => BitVec.getLsbD_and) hlength i
  | bitorAssign e other ih ihother =>
    refine stores_pairAssign rfl (fun a b hlength => ⟨length_zipAssignWords _ _ _, fun i => ?_⟩)
      (fun _ => ih hexact.1) (fun _ => ihother hexact.2) h
    exact index_toBits_zipAssign rfl (fun w o j _ => BitVec.getLsbD_or) hlength i

/-- A vector is observed as a list exactly when it is the one collected from it, an extraction
gives that vector exactly when the block of the range holds no bit behind it and the cut needs no
more blocks, and a program whose extractions are such is observed as the same program on lists. -/
theorem observes_run_iff (e : BitVecProgram) (l : List Bool) :
    (∀ v : BitsTruncated, v.Observes l ↔ v = BitsTruncated.fromIter l) ∧
    (∀ start stop : ℕ, start ≤ stop → stop ≤ l.length →
      ((∃ v, (BitsTruncated.fromIter l).extract start stop = some v ∧
        v.Observes ((l.drop start).take (stop - start))) ↔ ExtractExact l start stop)) ∧
    (e.ExtractsExactly → e.bits = some l → ∃ v, e.run = some v ∧ v.Observes l) := by
  refine ⟨fun v => observes_iff, fun start stop hle hstop => ?_, fun hexact hl => ?_⟩
  · rw [← (stores_fromIter l).extract_iff hle hstop]
    exact exists_congr fun v => and_congr_right fun _ => observes_iff.trans stores_iff.symm
  · obtain ⟨v, hv, hstores⟩ := stores_run hexact hl
    exact ⟨v, hv, hstores.observes⟩

theorem observes_run_iff_resize :
    ∃ v, (resize (extract (fromIter [true, false]) 0 1) 3).run = some v ∧
      v.Observes [true, false, false] := by
  refine (observes_run_iff _ _).2.2 ⟨trivial, fun l hl => ?_⟩ rfl
  obtain rfl : [true, false] = l := Option.some_inj.mp hl
  refine ⟨fun i hi _ => ?_, rfl⟩
  obtain ⟨j, rfl⟩ := Nat.exists_eq_add_of_le hi
  rw [Nat.add_comm]
  cases j <;> rfl

/-- The second of two ones stays behind the first when it is extracted. -/
theorem not_observes_extract : ¬ ∀ (e : BitVecProgram) (l : List Bool), e.bits = some l →
      ∃ v, e.run = some v ∧ v.Observes l := by
  intro hall
  obtain ⟨v, hv, hobserves⟩ := hall (extract (fromIter [true, true]) 0 1) [true] rfl
  obtain rfl := Option.some_inj.mp hv
  have hweight := hobserves.weight_eq
  revert hweight
  decide

end BitVecProgram

end QdkEc
