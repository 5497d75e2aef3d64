import QdkEc.Lib.Bits

/-!
# Bit vectors in words and sorted index sets

This module models the two storages of a bit set: `AlignedBitVec`, the words of
a fixed number of blocks, which row views share, and `IndexSet`, a sorted set of
indices.  Both are read as the bit set that they store.
-/

namespace QdkEc

open Bits List

/-- A machine word. -/
abbrev Word :=
  BitVec 64

def bitBlockWordCount : ℕ :=
  8

namespace Word

/-- The bit set of one word. -/
def toBits (w : Word) : Bits :=
  ⟨w.toNat⟩

/-- The parity of the number of ones in a word. -/
def parity (w : Word) : Bool :=
  w.toBits.parity

theorem below_toBits (w : Word) : w.toBits.Below 64 :=
  w.isLt

@[simp]
theorem index_toBits (w : Word) (i : ℕ) : w.toBits.index i = w.getLsbD i :=
  rfl

@[simp]
theorem toBits_zero : toBits 0#64 = 0 :=
  rfl

@[simp]
theorem toBits_xor (w v : Word) : toBits (w ^^^ v) = w.toBits + v.toBits := by
  refine ext_index fun i => ?_
  simp

theorem toBits_and (w v : Word) : toBits (w &&& v) = inter w.toBits v.toBits := by
  refine ext_index fun i => ?_
  simp

end Word

/-- The bit set stored in a list of words. -/
def Bits.ofWords : List Word → Bits
  | [] => 0
  | w :: ws => w.toBits + (Bits.ofWords ws).shiftUp 64

variable (n : ℕ)

namespace Bits

@[simp]
theorem shiftUp_zero : shiftUp n 0 = 0 := by
  refine ext_index fun i => ?_
  simp

theorem shiftUp_add (a b : Bits) : shiftUp n (a + b) = shiftUp n a + shiftUp n b := by
  refine ext_index fun i => ?_
  by_cases h : n ≤ i <;> simp [h]

theorem shiftUp_unit (n i : ℕ) : shiftUp n (unit i) = unit (n + i) := by
  refine ext_index fun j => ?_
  simp only [index_shiftUp, index_unit]
  by_cases h : n ≤ j
  · have hiff : i = j - n ↔ n + i = j := by omega
    simp [h, hiff]
  · have hne : n + i ≠ j := by omega
    simp [h, hne]

theorem parity_shiftUp (a : Bits) : (shiftUp n a).parity = a.parity := by
  induction a using unit_induction with
  | zero => rw [shiftUp_zero]
  | unit_add i a _ ih => rw [shiftUp_add, shiftUp_unit, parity_unit_add, parity_unit_add, ih]

theorem dot_shiftUp (a b : Bits) : dot (shiftUp n a) (shiftUp n b) = dot a b := by
  have hinter : inter (shiftUp n a) (shiftUp n b) = shiftUp n (inter a b) := by
    refine ext_index fun i => ?_
    by_cases h : n ≤ i <;> simp [h]
  unfold dot
  rw [hinter, parity_shiftUp]

theorem dot_shiftUp_of_below {n : ℕ} {a : Bits} (ha : a.Below n) (b : Bits) :
    dot a (shiftUp n b) = false := by
  refine dot_eq_false_of_disjoint fun i hi => ?_
  have hlt := ha.lt_of_index hi
  simp [show ¬ n ≤ i by omega]

theorem Below.shiftUp {m n : ℕ} {a : Bits} (ha : a.Below m) : (shiftUp n a).Below (n + m) := by
  rw [below_iff]
  intro i hi
  rw [index_shiftUp, ha.index_eq_false (by omega), Bool.and_false]

theorem below_ofWords (ws : List Word) : (ofWords ws).Below (64 * ws.length) := by
  induction ws with
  | nil => exact below_zero _
  | cons w ws ih =>
    have hlength : 64 * (w :: ws).length = 64 + 64 * ws.length := by
      rw [length_cons]
      omega
    rw [hlength]
    exact (w.below_toBits.mono (by omega)).add ih.shiftUp

theorem index_ofWords (ws : List Word) (i : ℕ) :
    (ofWords ws).index i = (ws.getD (i / 64) 0).getLsbD (i % 64) := by
  induction ws generalizing i with
  | nil => simp [ofWords]
  | cons w ws ih =>
    rw [ofWords, index_add, index_shiftUp, Word.index_toBits]
    rcases Nat.lt_or_ge i 64 with hi | hi
    · have hdiv : i / 64 = 0 := Nat.div_eq_of_lt hi
      simp [hdiv, Nat.mod_eq_of_lt hi, show ¬ 64 ≤ i by omega]
    · have hdiv : i / 64 = (i - 64) / 64 + 1 := by omega
      have hmod : i % 64 = (i - 64) % 64 := by omega
      have hword : w.getLsbD i = false := BitVec.getLsbD_of_ge w i hi
      rw [hword, ih, hdiv, hmod, getD_cons_succ]
      simp [hi]

theorem low_shiftUp_add {w : Bits} (hw : w.Below 64) (a : Bits) (n : ℕ) :
    low (64 + n) (w + shiftUp 64 a) = w + shiftUp 64 (low n a) := by
  refine ext_index fun i => ?_
  simp only [index_low, index_add, index_shiftUp]
  rcases Nat.lt_or_ge i 64 with hi | hi
  · simp [show i < 64 + n by omega, show ¬ 64 ≤ i by omega]
  · have hiff : i < 64 + n ↔ i - 64 < n := by omega
    rw [hw.index_eq_false hi]
    simp [hi, hiff]

end Bits

/-- The words of a whole number of blocks; row views of a matrix have the same storage. -/
structure AlignedBitVec where
  words : List Word
  blocks_aligned : bitBlockWordCount ∣ words.length
deriving DecidableEq

/-- Exclusive or of words into the first words of a list. -/
def bitxorAssignWords : List Word → List Word → List Word
  | w :: ws, o :: os => (w ^^^ o) :: bitxorAssignWords ws os
  | ws, _ => ws

/-- Exclusive or of the conjunctions of words. -/
def dotWords : List Word → List Word → Word
  | w :: ws, o :: os => (w &&& o) ^^^ dotWords ws os
  | _, _ => 0

/-- Multiply words of a Pauli by words of another one in one pass, on the right or on the left, and
accumulate the products that give the cross parity. -/
def mulAssignWords (right : Bool) :
    List Word → List Word → List Word → List Word → Word → List Word × List Word × Word
  | x :: xs, z :: zs, otherX :: otherXs, otherZ :: otherZs, products =>
    let (xs', zs', products') := mulAssignWords right xs zs otherXs otherZs
      (products ^^^ if right then z &&& otherX else x &&& otherZ)
    ((x ^^^ otherX) :: xs', (z ^^^ otherZ) :: zs', products')
  | xs, zs, _, _, products => (xs, zs, products)

variable (ws os : List Word)

@[simp]
theorem length_bitxorAssignWords :
    (bitxorAssignWords ws os).length = ws.length := by
  induction ws generalizing os with
  | nil => cases os <;> rfl
  | cons w ws ih =>
    cases os with
    | nil => rfl
    | cons o os => rw [bitxorAssignWords, length_cons, length_cons, ih]

theorem ofWords_bitxorAssignWords : ofWords (bitxorAssignWords ws os) =
      ofWords ws + Bits.low (64 * ws.length) (ofWords os) := by
  induction ws generalizing os with
  | nil =>
    refine ext_index fun i => ?_
    cases os <;> simp [bitxorAssignWords, ofWords]
  | cons w ws ih =>
    cases os with
    | nil =>
      refine ext_index fun i => ?_
      simp [bitxorAssignWords, ofWords]
    | cons o os =>
      have hlength : 64 * (w :: ws).length = 64 + 64 * ws.length := by
        rw [length_cons]
        omega
      rw [bitxorAssignWords, ofWords, ofWords, ofWords, ih, Word.toBits_xor,
        shiftUp_add, hlength, low_shiftUp_add o.below_toBits]
      abel

variable (right : Bool)

variable (xs zs otherXs otherZs : List Word)

theorem mulAssignWords_eq (products : Word) :
    let n := min (min xs.length zs.length) (min otherXs.length otherZs.length)
    mulAssignWords right xs zs otherXs otherZs products =
      (bitxorAssignWords xs (otherXs.take n), bitxorAssignWords zs (otherZs.take n),
        products ^^^ if right then dotWords (zs.take n) (otherXs.take n)
          else dotWords (xs.take n) (otherZs.take n)) := by
  induction xs generalizing zs otherXs otherZs products with
  | nil => simp [mulAssignWords, bitxorAssignWords, dotWords]
  | cons x xs ih =>
    cases zs with
    | nil => simp [mulAssignWords, bitxorAssignWords, dotWords]
    | cons z zs =>
      cases otherXs with
      | nil => simp [mulAssignWords, bitxorAssignWords, dotWords]
      | cons otherX otherXs =>
        cases otherZs with
        | nil => simp [mulAssignWords, bitxorAssignWords, dotWords]
        | cons otherZ otherZs =>
          simp only [mulAssignWords, ih, length_cons, Nat.add_min_add_right,
            take_succ_cons, bitxorAssignWords, dotWords]
          cases right <;> simp [BitVec.xor_assoc]

theorem length_mulAssignWords (products : Word) :
    (mulAssignWords right xs zs otherXs otherZs products).1.length = xs.length ∧
      (mulAssignWords right xs zs otherXs otherZs products).2.1.length = zs.length := by
  rw [mulAssignWords_eq]
  exact ⟨length_bitxorAssignWords _ _, length_bitxorAssignWords _ _⟩

theorem parity_dotWords :
    (dotWords ws os).parity = Bits.dot (ofWords ws) (ofWords os) := by
  induction ws generalizing os with
  | nil => cases os <;> simp [dotWords, ofWords, Word.parity]
  | cons w ws ih =>
    cases os with
    | nil => simp [dotWords, ofWords, Word.parity]
    | cons o os =>
      have hword : Bits.dot w.toBits o.toBits = Word.parity (w &&& o) := by
        rw [Word.parity, Word.toBits_and]
        rfl
      have hrest : Word.parity (dotWords ws os) =
          Bits.dot (ofWords ws) (ofWords os) := ih os
      rw [dotWords, Word.parity, Word.toBits_xor, parity_add, ← Word.parity,
        ← Word.parity, hrest, ofWords, ofWords, dot_add_left,
        dot_add_right, dot_add_right, dot_shiftUp,
        dot_shiftUp_of_below w.below_toBits,
        dot_comm (shiftUp 64 (ofWords ws)),
        dot_shiftUp_of_below o.below_toBits, hword, Bool.xor_false, Bool.false_xor]

theorem ofWords_take (ws : List Word) :
    ofWords (ws.take n) = Bits.low (64 * n) (ofWords ws) := by
  induction ws generalizing n with
  | nil =>
    refine ext_index fun i => ?_
    simp [ofWords]
  | cons w ws ih =>
    cases n with
    | zero =>
      refine ext_index fun i => ?_
      simp [ofWords]
    | succ n =>
      have hlength : 64 * (n + 1) = 64 + 64 * n := by omega
      rw [take_succ_cons, ofWords, ofWords, ih, hlength, low_shiftUp_add w.below_toBits]

theorem mulAssignWords_spec :
    let n := 64 * min (min xs.length zs.length) (min otherXs.length otherZs.length)
    let product := mulAssignWords right xs zs otherXs otherZs 0
    ofWords product.1 = ofWords xs + Bits.low n (ofWords otherXs) ∧
      ofWords product.2.1 = ofWords zs + Bits.low n (ofWords otherZs) ∧
        product.2.2.parity =
          if right then Bits.dot (Bits.low n (ofWords zs)) (Bits.low n (ofWords otherXs))
          else Bits.dot (Bits.low n (ofWords xs)) (Bits.low n (ofWords otherZs)) := by
  have hsum : ∀ {n : ℕ} (ws os : List Word), n ≤ ws.length →
      ofWords (bitxorAssignWords ws (os.take n)) =
        ofWords ws + Bits.low (64 * n) (ofWords os) := by
    intro n ws os hn
    rw [ofWords_bitxorAssignWords, ofWords_take, low_low (by omega)]
  simp only [mulAssignWords_eq]
  refine ⟨hsum xs otherXs (by omega), hsum zs otherZs (by omega), ?_⟩
  cases right with
  | false =>
    have hzero : ∀ w : Word, 0 ^^^ w = w := fun w => BitVec.zero_xor
    simp only [hzero, Bool.false_eq_true, if_false, parity_dotWords, ofWords_take]
  | true =>
    have hzero : ∀ w : Word, 0 ^^^ w = w := fun w => BitVec.zero_xor
    simp only [hzero, if_true, parity_dotWords, ofWords_take]

namespace AlignedBitVec

/-- The bit set that is stored. -/
def toBits (v : AlignedBitVec) : Bits :=
  Bits.ofWords v.words

/-- The number of bits that the blocks hold. -/
def bitLen (v : AlignedBitVec) : ℕ :=
  64 * v.words.length

theorem below_toBits (v : AlignedBitVec) : v.toBits.Below v.bitLen :=
  below_ofWords v.words

/-- The bit at an index; `none` is an index beyond the blocks. -/
def index (v : AlignedBitVec) (i : ℕ) : Option Bool :=
  v.words[i / 64]?.map (·.getLsbD (i % 64))

/-- Flip the bit at an index; `none` is an index beyond the blocks. -/
def negateIndex (v : AlignedBitVec) (i : ℕ) : Option AlignedBitVec :=
  if i < v.bitLen then
    some {
      words := v.words.modify (i / 64) (· ^^^ BitVec.twoPow 64 (i % 64))
      blocks_aligned := by
        rw [length_modify]
        exact v.blocks_aligned }
  else none

/-- Add the blocks that both vectors have. -/
def bitxorAssign (v other : AlignedBitVec) : AlignedBitVec where
  words := bitxorAssignWords v.words other.words
  blocks_aligned := by
    rw [length_bitxorAssignWords]
    exact v.blocks_aligned

/-- The parity of the positions in the blocks that both vectors have. -/
def dot (v other : AlignedBitVec) : Bool :=
  (dotWords v.words other.words).parity

theorem index_eq (v : AlignedBitVec) (i : ℕ) :
    v.index i = if i < v.bitLen then some (v.toBits.index i) else none := by
  unfold index bitLen toBits
  rw [index_ofWords]
  by_cases hi : i < 64 * v.words.length
  · have hdiv : i / 64 < v.words.length := by omega
    simp [hi, hdiv, getD_eq_getElem?_getD]
  · have hdiv : v.words.length ≤ i / 64 := by omega
    simp [hi, hdiv]

variable (v other : AlignedBitVec)

@[simp]
theorem bitLen_bitxorAssign :
    (v.bitxorAssign other).bitLen = v.bitLen := by
  simp [bitxorAssign, bitLen]

theorem toBits_bitxorAssign :
    (v.bitxorAssign other).toBits = v.toBits + Bits.low v.bitLen other.toBits :=
  ofWords_bitxorAssignWords v.words other.words

theorem dot_eq : v.dot other = Bits.dot v.toBits other.toBits :=
  parity_dotWords v.words other.words

theorem negateIndex_eq_none_iff {v : AlignedBitVec} {i : ℕ} :
    v.negateIndex i = none ↔ v.bitLen ≤ i := by
  unfold negateIndex
  split_ifs with h
  · simpa using h
  · simpa using h

theorem toBits_negateIndex {v v' : AlignedBitVec} {i : ℕ} (h : v.negateIndex i = some v') :
    v'.toBits = v.toBits + unit i ∧ v'.bitLen = v.bitLen := by
  unfold negateIndex at h
  split_ifs at h with hi
  obtain rfl := Option.some_inj.mp h
  refine ⟨ext_index fun j => ?_, by simp [bitLen]⟩
  have hlength : i / 64 < v.words.length := by
    unfold bitLen at hi
    omega
  rw [toBits, index_ofWords, index_add, toBits, index_ofWords, index_unit]
  simp only [getD_eq_getElem?_getD, getElem?_modify]
  rcases eq_or_ne (i / 64) (j / 64) with hword | hword
  · have hiff : j % 64 = i % 64 ↔ i = j := by omega
    have hget : v.words[j / 64]? = some v.words[j / 64] := by rw [getElem?_eq_getElem]
    simp [hword, hget, hiff, Nat.mod_lt]
  · have hne : i ≠ j := fun heq => hword (congrArg (· / 64) heq)
    simp [hword, hne]

end AlignedBitVec

/-- A sorted set of indices. -/
structure IndexSet where
  indexes : Finset ℕ
deriving DecidableEq

namespace IndexSet

/-- The indices in ascending order. -/
def support (s : IndexSet) : List ℕ :=
  s.indexes.sort

/-- The bit set that is stored. -/
def toBits (s : IndexSet) : Bits :=
  Bits.fromIndices s.support

def index (s : IndexSet) (i : ℕ) : Bool :=
  decide (i ∈ s.indexes)

/-- Insert an index, or remove it when it is found. -/
def negateIndex (s : IndexSet) (i : ℕ) : IndexSet :=
  if i ∈ s.indexes then ⟨s.indexes.erase i⟩ else ⟨insert i s.indexes⟩

/-- Flip the bits of a sorted sequence of indices. -/
def bitxorAssign (s : IndexSet) (otherSupport : List ℕ) : IndexSet :=
  otherSupport.foldl negateIndex s

/-- The parity of the indices at which the other bit set has a one; `none` is an index that the
other storage does not have. -/
def dot (s : IndexSet) (otherIndex : ℕ → Option Bool) : Option Bool :=
  s.support.foldlM (fun res index => (otherIndex index).map (res ^^ ·)) false

variable {s : IndexSet}

@[simp]
theorem mem_support {i : ℕ} : i ∈ s.support ↔ i ∈ s.indexes :=
  Finset.mem_sort _

theorem nodup_support (s : IndexSet) : s.support.Nodup :=
  Finset.sort_nodup _ _

@[simp]
theorem index_toBits (s : IndexSet) (i : ℕ) : s.toBits.index i = s.index i := by
  simp [toBits, index]

theorem ofList_support (s : IndexSet) : ofList s.support = s.toBits := by
  refine ext_index fun i => ?_
  rw [index_ofList s.nodup_support]
  simp [toBits]

theorem below_toBits_iff {n : ℕ} : s.toBits.Below n ↔ ∀ i ∈ s.support, i < n := by
  constructor
  · intro h i hi
    exact h.lt_of_index (by simpa [index] using hi)
  · intro h
    rw [below_iff]
    intro i hi
    rw [index_toBits, index, decide_eq_false_iff_not, ← mem_support]
    intro hmem
    exact absurd (h i hmem) (by omega)

theorem toBits_negateIndex (s : IndexSet) (i : ℕ) :
    (s.negateIndex i).toBits = s.toBits + unit i := by
  refine ext_index fun j => ?_
  rw [index_toBits, index_add, index_toBits, index_unit, negateIndex]
  split_ifs with hi
  · rcases eq_or_ne i j with rfl | hij
    · simp [index, hi]
    · simp [index, hij, hij.symm]
  · rcases eq_or_ne i j with rfl | hij
    · simp [index, hi]
    · simp [index, hij, hij.symm]

theorem toBits_bitxorAssign (s : IndexSet) (otherSupport : List ℕ) :
    (s.bitxorAssign otherSupport).toBits = s.toBits + ofList otherSupport := by
  induction otherSupport generalizing s with
  | nil => simp [bitxorAssign]
  | cons i otherSupport ih =>
    rw [bitxorAssign, foldl_cons]
    refine (ih (s.negateIndex i)).trans ?_
    rw [toBits_negateIndex, ofList_cons, add_assoc]

theorem dot_eq_some {otherIndex : ℕ → Option Bool} {other : Bits}
    (h : ∀ i ∈ s.support, otherIndex i = some (other.index i)) :
    s.dot otherIndex = some (Bits.dot s.toBits other) := by
  have hfold : ∀ (l : List ℕ) (res : Bool), (∀ i ∈ l, otherIndex i = some (other.index i)) →
      l.foldlM (fun res index => (otherIndex index).map (res ^^ ·)) res =
        some (res ^^ Bits.dot (ofList l) other) := by
    intro l
    induction l with
    | nil =>
      intro res _
      simp
    | cons i l ih =>
      intro res hl
      rw [foldlM_cons, hl i (by simp), Option.map_some]
      refine (ih _ fun j hj => hl j (by simp [hj])).trans ?_
      rw [ofList_cons, dot_add_left, dot_unit_left, Bool.xor_assoc]
  rw [dot, hfold _ _ h, ofList_support, Bool.false_xor]

theorem dot_eq_none {otherIndex : ℕ → Option Bool} {i : ℕ} (hi : i ∈ s.support)
    (h : otherIndex i = none) : s.dot otherIndex = none := by
  have hfold : ∀ (l : List ℕ) (res : Bool), i ∈ l →
      l.foldlM (fun res index => (otherIndex index).map (res ^^ ·)) res = none := by
    intro l
    induction l with
    | nil =>
      intro res hmem
      cases hmem
    | cons j l ih =>
      intro res hmem
      rw [foldlM_cons]
      rcases mem_cons.mp hmem with rfl | hmem
      · rw [h]
        rfl
      · cases hj : otherIndex j with
        | none => rfl
        | some b => exact ih _ hmem
  exact hfold _ _ hi

end IndexSet

namespace AlignedBitVec

/-- The indices of the ones in ascending order. -/
def support (v : AlignedBitVec) : List ℕ :=
  v.toBits.support

/-- Flip the bits of an index set; `none` is an index beyond the blocks. -/
def bitxorAssignIndexSet (v : AlignedBitVec) (other : IndexSet) : Option AlignedBitVec :=
  other.support.foldlM negateIndex v

theorem bitxorAssignIndexSet_spec (v : AlignedBitVec) (other : IndexSet) :
    if other.toBits.Below v.bitLen then
      ∃ v', v.bitxorAssignIndexSet other = some v' ∧ v'.toBits = v.toBits + other.toBits ∧
        v'.bitLen = v.bitLen else v.bitxorAssignIndexSet other = none := by
  have hfold : ∀ (l : List ℕ) (v : AlignedBitVec),
      if ∀ i ∈ l, i < v.bitLen then
        ∃ v', l.foldlM negateIndex v = some v' ∧ v'.toBits = v.toBits + ofList l ∧
          v'.bitLen = v.bitLen
      else l.foldlM negateIndex v = none := by
    intro l
    induction l with
    | nil =>
      intro v
      rw [if_pos (by simp)]
      exact ⟨v, rfl, by simp, rfl⟩
    | cons i l ih =>
      intro v
      rw [foldlM_cons]
      cases hi : v.negateIndex i with
      | none =>
        have hle := negateIndex_eq_none_iff.mp hi
        rw [if_neg (by simp; omega)]
        rfl
      | some v₁ =>
        obtain ⟨hbits, hlen⟩ := toBits_negateIndex hi
        have hlt : i < v.bitLen := by
          by_contra hge
          rw [negateIndex_eq_none_iff.mpr (by omega)] at hi
          cases hi
        have hrest := ih v₁
        rw [hlen] at hrest
        have hiff : (∀ j ∈ i :: l, j < v.bitLen) ↔ ∀ j ∈ l, j < v.bitLen := by simp [hlt]
        rw [if_congr hiff rfl rfl]
        split_ifs at hrest ⊢ with hall
        · obtain ⟨v', hrun, hbits', hlen'⟩ := hrest
          refine ⟨v', hrun, ?_, hlen'⟩
          rw [hbits', hbits, ofList_cons, add_assoc]
        · exact hrest
  have hspec := hfold other.support v
  rw [if_congr IndexSet.below_toBits_iff.symm rfl rfl, IndexSet.ofList_support] at hspec
  exact hspec

end AlignedBitVec

end QdkEc
