import QdkEc.Binar.TiledTransposition
import QdkEc.Lib.GrayCode

/-!
# The method of four Russians

This module models `m4ri::mul`.  The rows of the left matrix are cut into stripes
of eight bits; for every stripe a table holds all sums of the corresponding rows
of the right matrix, filled in the order of the Gray code, and the bits of a row
of the left matrix select the entry that is added to the row of the result.
-/

namespace QdkEc

open AlignedBitMatrix Nat Bits List

namespace M4ri

def innerStripeBits : ℕ :=
  8

/-- The number of inner stripes that are processed together. -/
def superStripeCount : ℕ :=
  4

def superStripeBits : ℕ :=
  innerStripeBits * superStripeCount

/-- The quotient, rounded up. -/
def divCeil (n d : ℕ) : ℕ :=
  n / d + if n % d = 0 then 0 else 1

theorem lt_of_lt_divCeil {n d k : ℕ} (hk : k < divCeil n d) : k * d < n := by
  have hdiv := Nat.div_add_mod n d
  rw [mul_comm] at hdiv
  unfold divCeil at hk
  split_ifs at hk with hmod
  · rw [Nat.add_zero] at hk
    have hpos : 0 < d := pos_of_ne_zero fun h => by simp [h] at hk
    have hle := Nat.mul_le_mul_right d (succ_le_of_lt hk)
    rw [succ_mul] at hle
    omega
  · have hle := Nat.mul_le_mul_right d (Nat.lt_succ_iff.mp hk)
    omega

theorem le_divCeil_mul {n d : ℕ} (hd : 0 < d) : n ≤ divCeil n d * d := by
  have hdiv := Nat.div_add_mod n d
  rw [mul_comm] at hdiv
  unfold divCeil
  split_ifs
  · rw [Nat.add_zero]
    omega
  · have hlt := mod_lt n hd
    rw [succ_mul]
    omega

/-- The lookup tables of a super-stripe, one for each inner stripe. -/
structure RowStripeTable where
  subTables : ℕ → AlignedBitMatrix

namespace RowStripeTable

/-- Tables of zeros. -/
def new (numCols : ℕ) : RowStripeTable where
  subTables _ := AlignedBitMatrix.zeros (1 <<< innerStripeBits) numCols

/-- Fill the entry of the next code from that of the previous one. -/
def addPattern (matrix : AlignedBitMatrix) (innerBitStart : ℕ) (state : AlignedBitMatrix × ℕ)
    (pattern : ℕ) :
    AlignedBitMatrix × ℕ :=
  let previousGray := state.2
  let currentGray := pattern ^^^ (pattern >>> 1)
  let changedBit := trailingZeros (previousGray ^^^ currentGray)
  let srcRow := matrix.row (innerBitStart + changedBit)
  (state.1.setRow currentGray (state.1.row previousGray + srcRow), currentGray)

/-- Fill a table with the sums of the rows of an inner stripe. -/
def populateSubTable (matrix : AlignedBitMatrix) (innerBitStart innerBits : ℕ)
    (table : AlignedBitMatrix) :
    AlignedBitMatrix :=
  let numPatterns := 1 <<< innerBits
  ((List.range' 1 (numPatterns - 1)).foldl (addPattern matrix innerBitStart)
    (table.setRow 0 0, 0)).1

/-- Fill the tables of the inner stripes of a super-stripe. -/
def populate (rowTable : RowStripeTable) (matrix : AlignedBitMatrix) (bitStart stripeBits : ℕ) :
    RowStripeTable where
  subTables := (List.range (divCeil stripeBits innerStripeBits)).foldl
    (fun subTables innerIdx => Function.update subTables innerIdx
      (populateSubTable matrix (bitStart + innerIdx * innerStripeBits)
        (min innerStripeBits (stripeBits - innerIdx * innerStripeBits)) (subTables innerIdx)))
    rowTable.subTables

/-- The entry of a pattern. -/
def get (rowTable : RowStripeTable) (tableIdx pattern : ℕ) : Bits :=
  (rowTable.subTables tableIdx).row pattern

end RowStripeTable

/-- The words of the columns of a stripe, with the patterns of the current 64 columns. -/
structure StripeColumnExtractor where
  stripeRows : ℕ → ℕ → Word
  numColumns : ℕ
  numInnerStripes : ℕ
  stripeBits : ℕ
  currentColumn : ℕ
  cachedPatterns : ℕ → ℕ → Word

namespace StripeColumnExtractor

/-- The words of an inner stripe, with zeros behind the last row. -/
def blockInput (e : StripeColumnExtractor) (wordIndex innerIdx bit : ℕ) : Word :=
  let rowOffset := innerIdx * innerStripeBits
  let innerBits := min innerStripeBits (e.stripeBits - rowOffset)
  if bit < innerBits then e.stripeRows (rowOffset + bit) wordIndex else 0

/-- Extract the patterns of 64 columns. -/
def loadBlock (e : StripeColumnExtractor) (wordIndex : ℕ) : StripeColumnExtractor :=
  { e with
    cachedPatterns := (List.range e.numInnerStripes).foldl (fun cachedPatterns innerIdx =>
      Function.update cachedPatterns innerIdx (transpose8x64 (e.blockInput wordIndex innerIdx)))
      e.cachedPatterns }

/-- The extractor of a stripe of the transposed matrix. -/
def new (transposedMatrix : AlignedBitMatrix) (bitStart stripeBits : ℕ) : StripeColumnExtractor :=
  let extractor : StripeColumnExtractor :=
    { stripeRows := fun offset =>
        if 0 < offset ∧ offset < stripeBits then transposedMatrix.rowWord (bitStart + offset)
        else transposedMatrix.rowWord bitStart
      numColumns := transposedMatrix.columnCount
      numInnerStripes := divCeil stripeBits innerStripeBits
      stripeBits := stripeBits
      currentColumn := 0
      cachedPatterns := fun _ _ => 0 }
  if 0 < extractor.numColumns then extractor.loadBlock 0 else extractor

def currentPatterns (e : StripeColumnExtractor) (innerIdx : ℕ) : ℕ :=
  let colInBlock := e.currentColumn % 64
  let wordIndex := colInBlock / 8
  let shift := colInBlock % 8 * 8
  ((e.cachedPatterns innerIdx wordIndex >>> shift) &&& 0xFF#64).toNat

/-- Move to the next column, and load its block if it is the first one of it. -/
def incrementColumn (e : StripeColumnExtractor) : StripeColumnExtractor :=
  let moved := { e with currentColumn := e.currentColumn + 1 }
  if moved.currentColumn % 64 = 0 ∧ moved.currentColumn < moved.numColumns then
    moved.loadBlock (moved.currentColumn / 64)
  else moved

/-- The patterns of the next column, and the extractor behind it. -/
def next (e : StripeColumnExtractor) : Option ((ℕ → ℕ) × StripeColumnExtractor) :=
  if e.numColumns ≤ e.currentColumn then none
  else some (e.currentPatterns, e.incrementColumn)

end StripeColumnExtractor

/-- Add the entries that the patterns of a column select to a row of the result. -/
def addContributions (rowTable : RowStripeTable) (numInnerStripes : ℕ) (patterns : ℕ → ℕ)
    (rowIndex : ℕ) (result : AlignedBitMatrix) :
    AlignedBitMatrix :=
  (List.range numInnerStripes).foldl (fun result innerIdx =>
    result.setRow rowIndex (result.row rowIndex + rowTable.get innerIdx (patterns innerIdx))) result

theorem StripeColumnExtractor.columns_incrementColumn (e : StripeColumnExtractor) :
    e.incrementColumn.numColumns = e.numColumns ∧
      e.incrementColumn.currentColumn = e.currentColumn + 1 := by
  simp only [incrementColumn]
  split_ifs
  · exact ⟨rfl, rfl⟩
  · exact ⟨rfl, rfl⟩

/-- Add the contributions of a stripe to the rows of the result, one for each column left. -/
def multiplyStripes (rowTable : RowStripeTable) (numInnerStripes : ℕ)
    (columnPatterns : StripeColumnExtractor) (rowIndex : ℕ) (result : AlignedBitMatrix) :
    AlignedBitMatrix :=
  match h : columnPatterns.next with
  | none => result
  | some (patterns, rest) =>
    multiplyStripes rowTable numInnerStripes rest (rowIndex + 1)
      (addContributions rowTable numInnerStripes patterns rowIndex result)
termination_by columnPatterns.numColumns - columnPatterns.currentColumn
decreasing_by
  unfold StripeColumnExtractor.next at h
  split_ifs at h with hlast
  cases h
  obtain ⟨hcolumns, hcurrent⟩ := columnPatterns.columns_incrementColumn
  omega

/-- Add the products of a super-stripe to the result. -/
def addStripe (leftTransposed right : AlignedBitMatrix) (state : AlignedBitMatrix × RowStripeTable)
    (stripeIndex : ℕ) :
    AlignedBitMatrix × RowStripeTable :=
  let innerDimension := leftTransposed.rowCount
  let bitStart := stripeIndex * superStripeBits
  let stripeBits := min superStripeBits (innerDimension - bitStart)
  let rowTable := state.2.populate right bitStart stripeBits
  let columnPatterns := StripeColumnExtractor.new leftTransposed bitStart stripeBits
  (multiplyStripes rowTable columnPatterns.numInnerStripes columnPatterns 0 state.1, rowTable)

/-- The product of two matrices, none when the shapes do not fit. -/
def mul (left right : AlignedBitMatrix) : Option AlignedBitMatrix :=
  if left.columnCount ≠ right.rowCount then none
  else
    let numResultRows := left.rowCount
    let innerDimension := left.columnCount
    let numResultCols := right.columnCount
    if innerDimension = 0 ∨ numResultCols = 0 then
      some (AlignedBitMatrix.zeros numResultRows numResultCols)
    else
      let leftTransposed := left.transposedTiles
      let result := AlignedBitMatrix.zeros numResultRows numResultCols
      let numStripes := divCeil innerDimension superStripeBits
      some ((List.range numStripes).foldl (addStripe leftTransposed right)
        (result, RowStripeTable.new numResultCols)).1

variable {rowTable : RowStripeTable}

namespace RowStripeTable

section Tables

variable {matrix table : AlignedBitMatrix} {innerBitStart innerBits : ℕ}

/-- The codes visited so far have the sums of their rows as entries. -/
structure Visited (matrix table : AlignedBitMatrix) (innerBitStart rowCount p : ℕ)
    (previousGray : ℕ) :
    Prop where
  rowCount_eq : table.rowCount = rowCount
  previous : previousGray = gray p
  entries : ∀ q ≤ p, table.row (gray q) =
    Bits.combine (fun bit => matrix.row (innerBitStart + bit)) ⟨gray q⟩

theorem Visited.addPattern {rowCount p : ℕ} {state : AlignedBitMatrix × ℕ}
    (h : Visited matrix state.1 innerBitStart rowCount p state.2)
    (hbits : innerBits ≤ innerStripeBits) (hrows : 2 ^ innerBits ≤ rowCount)
    (hp : p + 1 < 2 ^ innerBits) :
    let next := RowStripeTable.addPattern matrix innerBitStart state (p + 1)
    Visited matrix next.1 innerBitStart rowCount (p + 1) next.2 := by
  obtain ⟨bit, _, hbit, hchanged⟩ := exists_changed_bit
    (hbits.trans (by decide : innerStripeBits ≤ 64)) hp
  have hnext : gray (p + 1) < 2 ^ innerBits := gray_lt hp
  have hcode : (⟨gray (p + 1)⟩ : Bits) = ⟨gray p⟩ + unit bit := by
    refine Bits.ext ?_
    change gray (p + 1) = gray p ^^^ 2 ^ bit
    rw [← hbit, xor_xor_cancel_left]
  refine ⟨?_, rfl, fun q hq => ?_⟩
  · exact (rowCount_setRow _ _ _).trans h.rowCount_eq
  · change (state.1.setRow (gray (p + 1)) (state.1.row state.2 +
      matrix.row (innerBitStart + trailingZeros (state.2 ^^^ gray (p + 1))))).row (gray q) = _
    rw [row_setRow (by rw [h.rowCount_eq]; omega)]
    rcases Nat.lt_succ_iff_lt_or_eq.mp (Nat.lt_succ_of_le hq) with hlast | rfl
    · rw [if_neg fun heq => by
        have := gray_injective heq
        omega]
      exact h.entries q (by omega)
    · rw [if_pos rfl, h.previous, hchanged, h.entries p (le_refl p), hcode, combine_add,
        combine_unit]

theorem Visited.foldl {rowCount n : ℕ} (state : AlignedBitMatrix × ℕ)
    (h : Visited matrix state.1 innerBitStart rowCount 0 state.2)
    (hbits : innerBits ≤ innerStripeBits) (hrows : 2 ^ innerBits ≤ rowCount)
    (hn : n < 2 ^ innerBits) :
    let walked := (List.range' 1 n).foldl (RowStripeTable.addPattern matrix innerBitStart) state
    Visited matrix walked.1 innerBitStart rowCount n walked.2 := by
  induction n with
  | zero => exact h
  | succ n ih =>
    rw [range'_concat, foldl_append, foldl_cons, foldl_nil, one_mul, add_comm 1 n]
    exact (ih (by omega)).addPattern hbits hrows hn

theorem populateSubTable_spec (matrix : AlignedBitMatrix) (innerBitStart : ℕ)
    (hbits : innerBits ≤ innerStripeBits) (hrows : table.rowCount = 1 <<< innerStripeBits) :
    (populateSubTable matrix innerBitStart innerBits table).rowCount = table.rowCount ∧
      ∀ pattern < 2 ^ innerBits,
        (populateSubTable matrix innerBitStart innerBits table).row pattern =
          Bits.combine (fun bit => matrix.row (innerBitStart + bit)) ⟨pattern⟩ := by
  have hpos := Nat.two_pow_pos innerBits
  have hle : 2 ^ innerBits ≤ table.rowCount := by
    rw [hrows, Nat.one_shiftLeft]
    exact Nat.pow_le_pow_right (by omega) hbits
  have hstart : Visited matrix (table.setRow 0 0) innerBitStart table.rowCount 0 0 := by
    refine ⟨rowCount_setRow _ _ _, rfl, fun q hq => ?_⟩
    obtain rfl := le_zero.mp hq
    rw [gray_zero, row_setRow (by omega), if_pos rfl]
    exact (combine_zero _).symm
  have hwalk := Visited.foldl (table.setRow 0 0, 0) hstart hbits hle
    (show 2 ^ innerBits - 1 < 2 ^ innerBits by omega)
  rw [populateSubTable, Nat.one_shiftLeft]
  refine ⟨hwalk.rowCount_eq, fun pattern hpattern => ?_⟩
  obtain ⟨q, hq, rfl⟩ := exists_gray_eq hpattern
  exact hwalk.entries q (by omega)

end Tables

/-- All tables have an entry for every pattern. -/
def HasShape (rowTable : RowStripeTable) : Prop :=
  ∀ tableIdx, (rowTable.subTables tableIdx).rowCount = 1 <<< innerStripeBits

theorem hasShape_new (numCols : ℕ) : (new numCols).HasShape :=
  fun _ => rowCount_zeros _ _

theorem subTables_populate (rowTable : RowStripeTable) (matrix : AlignedBitMatrix)
    (bitStart stripeBits innerIdx : ℕ) :
    (rowTable.populate matrix bitStart stripeBits).subTables innerIdx =
      if innerIdx < divCeil stripeBits innerStripeBits then
        populateSubTable matrix (bitStart + innerIdx * innerStripeBits)
          (min innerStripeBits (stripeBits - innerIdx * innerStripeBits))
          (rowTable.subTables innerIdx) else rowTable.subTables innerIdx :=
  foldl_update_range (fun innerIdx => populateSubTable matrix
    (bitStart + innerIdx * innerStripeBits)
    (min innerStripeBits (stripeBits - innerIdx * innerStripeBits))) _ _ _

theorem HasShape.populate (h : rowTable.HasShape)
    (matrix : AlignedBitMatrix) (bitStart stripeBits : ℕ) :
    (rowTable.populate matrix bitStart stripeBits).HasShape ∧
      ∀ innerIdx < divCeil stripeBits innerStripeBits,
        ∀ pattern < 2 ^ min innerStripeBits (stripeBits - innerIdx * innerStripeBits),
          (rowTable.populate matrix bitStart stripeBits).get innerIdx pattern =
            Bits.combine (fun bit => matrix.row (bitStart + innerIdx * innerStripeBits + bit))
              ⟨pattern⟩ := by
  have hspec := fun innerIdx => populateSubTable_spec matrix
    (bitStart + innerIdx * innerStripeBits)
    (min_le_left innerStripeBits (stripeBits - innerIdx * innerStripeBits)) (h innerIdx)
  refine ⟨fun innerIdx => ?_, fun innerIdx hinner pattern hpattern => ?_⟩
  · rw [subTables_populate]
    split_ifs
    · rw [(hspec innerIdx).1, h]
    · exact h innerIdx
  · rw [get, subTables_populate, if_pos hinner]
    exact (hspec innerIdx).2 pattern hpattern

end RowStripeTable

namespace StripeColumnExtractor

/-- An extractor at a column of a stripe, with the patterns of its block loaded. -/
structure Extracts (transposedMatrix : AlignedBitMatrix) (bitStart stripeBits : ℕ)
    (e : StripeColumnExtractor) (column : ℕ) :
    Prop where
  stripeRows : ∀ offset < stripeBits,
    e.stripeRows offset = transposedMatrix.rowWord (bitStart + offset)
  numColumns : e.numColumns = transposedMatrix.columnCount
  numInnerStripes : e.numInnerStripes = divCeil stripeBits innerStripeBits
  stripeBits : e.stripeBits = stripeBits
  currentColumn : e.currentColumn = column
  loaded : column < e.numColumns → ∀ innerIdx < e.numInnerStripes,
    e.cachedPatterns innerIdx = transpose8x64 (e.blockInput (column / 64) innerIdx)

theorem cachedPatterns_loadBlock (e : StripeColumnExtractor) (wordIndex : ℕ) {innerIdx : ℕ}
    (hinner : innerIdx < e.numInnerStripes) : (e.loadBlock wordIndex).cachedPatterns innerIdx =
      transpose8x64 (e.blockInput wordIndex innerIdx) :=
  (foldl_update_range (fun innerIdx _ => transpose8x64 (e.blockInput wordIndex innerIdx)) _ _
    innerIdx).trans (if_pos hinner)

section Extracts

variable {transposedMatrix : AlignedBitMatrix} {bitStart stripeBits column : ℕ}

theorem extracts_new (transposedMatrix : AlignedBitMatrix) (bitStart stripeBits : ℕ) :
    Extracts transposedMatrix bitStart stripeBits (new transposedMatrix bitStart stripeBits) 0 := by
  have hrows : ∀ offset < stripeBits, (if 0 < offset ∧ offset < stripeBits then
      transposedMatrix.rowWord (bitStart + offset) else transposedMatrix.rowWord bitStart) =
        transposedMatrix.rowWord (bitStart + offset) := by
    intro offset hoffset
    rcases Nat.eq_zero_or_pos offset with rfl | hpos
    · rw [if_neg fun h => absurd h.1 (lt_irrefl 0), Nat.add_zero]
    · rw [if_pos ⟨hpos, hoffset⟩]
  simp only [new]
  split_ifs with hcolumns
  · exact ⟨hrows, rfl, rfl, rfl, rfl, fun _ _ hinner => cachedPatterns_loadBlock _ _ hinner⟩
  · exact ⟨hrows, rfl, rfl, rfl, rfl, fun h => absurd h hcolumns⟩

theorem Extracts.incrementColumn {e : StripeColumnExtractor}
    (h : Extracts transposedMatrix bitStart stripeBits e column) :
    Extracts transposedMatrix bitStart stripeBits e.incrementColumn (column + 1) := by
  simp only [StripeColumnExtractor.incrementColumn]
  rw [h.currentColumn]
  split_ifs with hload
  · exact ⟨h.stripeRows, h.numColumns, h.numInnerStripes, h.stripeBits, rfl,
      fun _ _ hinner => cachedPatterns_loadBlock _ _ hinner⟩
  · refine ⟨h.stripeRows, h.numColumns, h.numInnerStripes, h.stripeBits, rfl,
      fun hcolumn innerIdx hinner => ?_⟩
    have hcolumn : column + 1 < e.numColumns := hcolumn
    have hsame : (column + 1) / 64 = column / 64 := by omega
    rw [hsame]
    exact h.loaded (by omega) innerIdx hinner

theorem Extracts.currentPatterns {e : StripeColumnExtractor}
    (h : Extracts transposedMatrix bitStart stripeBits e column)
    (hcolumn : column < transposedMatrix.columnCount) {v : Bits} (hv : ∀ offset < stripeBits,
      transposedMatrix.get (bitStart + offset) column = v.index (bitStart + offset)) {innerIdx : ℕ}
    (hinner : innerIdx < divCeil stripeBits innerStripeBits) :
    let start := bitStart + innerIdx * innerStripeBits
    let width := min innerStripeBits (stripeBits - innerIdx * innerStripeBits)
    (⟨e.currentPatterns innerIdx⟩ : Bits) = shiftDown start (Bits.low (start + width) v) := by
  intro start width
  have hcached := h.loaded (h.numColumns ▸ hcolumn) innerIdx (h.numInnerStripes ▸ hinner)
  have hword := div_lt_rowWordCount hcolumn
  refine ext_index fun bit => ?_
  have hread : (⟨e.currentPatterns innerIdx⟩ : Bits).index bit =
      ((e.cachedPatterns innerIdx (column % 64 / 8) >>> (column % 64 % 8 * 8)).getLsbD bit &&
        decide (bit < 8)) := by
    rw [StripeColumnExtractor.currentPatterns, h.currentColumn, index, ← BitVec.getLsbD,
      BitVec.getLsbD_and, getLsbD_byteMask]
  rw [hread, index_shiftDown, index_low]
  rcases lt_or_ge bit 8 with hbit | hbit
  · rw [hcached, BitVec.getLsbD_ushiftRight, mul_comm,
      getLsbD_transpose8x64 (by omega) hbit, Nat.div_add_mod, blockInput, h.stripeBits,
      decide_eq_true hbit, Bool.and_true]
    by_cases hwidth : bit < width
    · have hoffset : innerIdx * innerStripeBits + bit < stripeBits := by omega
      rw [if_pos hwidth, h.stripeRows _ hoffset,
        getLsbD_rowWord hword (mod_lt _ (by omega)), Nat.div_add_mod,
        hv _ hoffset, decide_eq_true (by omega), Bool.true_and, add_assoc]
    · rw [if_neg hwidth, decide_eq_false (by omega), Bool.false_and]
      exact BitVec.getLsbD_zero
  · have hwidth : width ≤ 8 := min_le_left _ _
    rw [decide_eq_false (by omega), Bool.and_false, decide_eq_false (by omega), Bool.false_and]

end Extracts

end StripeColumnExtractor

section Sums

variable {left right leftTransposed : AlignedBitMatrix}

/-- The rows of the result are the sums over the first bits of the rows on the left. -/
structure Sums (left right : AlignedBitMatrix) (bits : ℕ → ℕ) (result : AlignedBitMatrix) :
    Prop where
  rowCount : result.rowCount = left.rowCount
  columnCount : result.columnCount = right.columnCount
  rows : ∀ i < left.rowCount, result.row i =
    Bits.combine right.row (Bits.low (bits i) (left.row i))

theorem combine_low_add (g : ℕ → Bits) (start width : ℕ) (v : Bits) :
    Bits.combine g (Bits.low (start + width) v) =
      Bits.combine g (Bits.low start v) + Bits.combine (fun bit => g (start + bit))
        (shiftDown start (Bits.low (start + width) v)) := by
  have hsplit := combine_split g (fun bit => g (start + bit)) start
    (Bits.low (start + width) v)
  have hlow : Bits.low start (Bits.low (start + width) v) = Bits.low start v := by
    refine ext_index fun i => ?_
    rw [index_low, index_low, index_low, ← Bool.and_assoc, ← Bool.decide_and]
    congr 1
    exact decide_eq_decide.mpr (by omega)
  rw [hlow] at hsplit
  rw [← hsplit]
  congr 1
  funext i
  split_ifs
  · rfl
  · rw [show start + (i - start) = i by omega]

theorem patterns_lt {pattern start width : ℕ} {v : Bits}
    (h : (⟨pattern⟩ : Bits) = shiftDown start (Bits.low (start + width) v)) :
    pattern < 2 ^ width := by
  have hbelow : Bits.Below width ⟨pattern⟩ := by
    rw [h, below_iff]
    intro i hi
    rw [index_shiftDown, index_low, decide_eq_false (by omega), Bool.false_and]
  exact hbelow

/-- The tables of a stripe have the sums of its rows of the right matrix. -/
def HasSums (right : AlignedBitMatrix) (bitStart stripeBits : ℕ) (rowTable : RowStripeTable) :
    Prop :=
  ∀ innerIdx < divCeil stripeBits innerStripeBits,
    ∀ pattern < 2 ^ min innerStripeBits (stripeBits - innerIdx * innerStripeBits),
      rowTable.get innerIdx pattern =
        Bits.combine (fun bit => right.row (bitStart + innerIdx * innerStripeBits + bit)) ⟨pattern⟩

theorem Sums.addContributions {bits : ℕ → ℕ} {result : AlignedBitMatrix}
    {bitStart stripeBits rowIndex : ℕ} (h : Sums left right bits result)
    (htable : HasSums right bitStart stripeBits rowTable) (hrow : rowIndex < left.rowCount)
    (hbits : bits rowIndex = bitStart) {patterns : ℕ → ℕ}
    (hpatterns : ∀ innerIdx < divCeil stripeBits innerStripeBits,
      (⟨patterns innerIdx⟩ : Bits) = shiftDown (bitStart + innerIdx * innerStripeBits)
        (Bits.low (bitStart + innerIdx * innerStripeBits +
          min innerStripeBits (stripeBits - innerIdx * innerStripeBits)) (left.row rowIndex)))
    {n : ℕ} (hn : n ≤ divCeil stripeBits innerStripeBits) : Sums left right
      (Function.update bits rowIndex (bitStart + min (n * innerStripeBits) stripeBits))
      (M4ri.addContributions rowTable n patterns rowIndex result) := by
  unfold M4ri.addContributions
  induction n with
  | zero =>
    rw [zero_mul, zero_min, Nat.add_zero, ← hbits, Function.update_eq_self]
    exact h
  | succ n ih =>
    have hsum := ih (by omega)
    rw [range_succ, foldl_append, foldl_cons, foldl_nil]
    have hstart : n * innerStripeBits < stripeBits := lt_of_lt_divCeil (by omega)
    have hprevious : min (n * innerStripeBits) stripeBits = n * innerStripeBits := by omega
    have hnext : bitStart + min ((n + 1) * innerStripeBits) stripeBits =
        bitStart + n * innerStripeBits +
          min innerStripeBits (stripeBits - n * innerStripeBits) := by
      rw [succ_mul]
      omega
    have hpattern := hpatterns n (by omega)
    refine ⟨(rowCount_setRow _ _ _).trans hsum.rowCount, hsum.columnCount,
      fun i hi => ?_⟩
    rw [row_setRow (by rw [hsum.rowCount]; exact hrow)]
    split_ifs with hsame
    · subst hsame
      rw [hsum.rows i hi, htable n (by omega) _ (patterns_lt hpattern), hpattern,
        Function.update_self, Function.update_self, hnext, hprevious,
        combine_low_add right.row (bitStart + n * innerStripeBits)]
    · rw [hsum.rows i hi, Function.update_of_ne hsame, Function.update_of_ne hsame]

variable {columnPatterns : StripeColumnExtractor}

theorem multiplyStripes_of_le {numInnerStripes rowIndex : ℕ}
    (h : columnPatterns.numColumns ≤ columnPatterns.currentColumn) (result : AlignedBitMatrix) :
    multiplyStripes rowTable numInnerStripes columnPatterns rowIndex result = result := by
  rw [multiplyStripes]
  split
  · rfl
  · rename_i patterns rest hnext
    rw [StripeColumnExtractor.next, if_pos h] at hnext
    cases hnext

theorem multiplyStripes_of_lt {numInnerStripes rowIndex : ℕ}
    (h : columnPatterns.currentColumn < columnPatterns.numColumns) (result : AlignedBitMatrix) :
    multiplyStripes rowTable numInnerStripes columnPatterns rowIndex result =
      multiplyStripes rowTable numInnerStripes columnPatterns.incrementColumn (rowIndex + 1)
        (M4ri.addContributions rowTable numInnerStripes columnPatterns.currentPatterns rowIndex
          result) := by
  rw [multiplyStripes]
  split
  · rename_i hnext
    rw [StripeColumnExtractor.next, if_neg (by omega)] at hnext
    cases hnext
  · rename_i patterns rest hnext
    rw [StripeColumnExtractor.next, if_neg (by omega)] at hnext
    cases hnext
    rfl

theorem Sums.multiplyStripes {bitStart stripeBits : ℕ}
    (htable : HasSums right bitStart stripeBits rowTable)
    (hcolumns : leftTransposed.columnCount = left.rowCount)
    (hentries : ∀ i < left.rowCount, ∀ offset < stripeBits,
      leftTransposed.get (bitStart + offset) i = (left.row i).index (bitStart + offset))
    {rowIndex remaining : ℕ}
    (hextracts : columnPatterns.Extracts leftTransposed bitStart stripeBits rowIndex)
    (hremaining : rowIndex + remaining = left.rowCount) {result : AlignedBitMatrix}
    (h : Sums left right (fun i => if i < rowIndex then bitStart + stripeBits else bitStart)
      result) : Sums left right (fun _ => bitStart + stripeBits)
      (M4ri.multiplyStripes rowTable (divCeil stripeBits innerStripeBits) columnPatterns rowIndex
        result) := by
  induction remaining generalizing columnPatterns rowIndex result with
  | zero =>
    rw [multiplyStripes_of_le
      (by rw [hextracts.numColumns, hextracts.currentColumn, hcolumns]; omega)]
    refine ⟨h.rowCount, h.columnCount, fun i hi => ?_⟩
    rw [h.rows i hi, if_pos (by omega)]
  | succ remaining ih =>
    have hrow : rowIndex < left.rowCount := by omega
    rw [multiplyStripes_of_lt
      (by rw [hextracts.numColumns, hextracts.currentColumn, hcolumns]; omega)]
    refine ih hextracts.incrementColumn (by omega) ?_
    have hsum := h.addContributions htable hrow (if_neg (lt_irrefl _))
      (fun innerIdx hinner => hextracts.currentPatterns (hcolumns.symm ▸ hrow)
        (hentries rowIndex hrow) hinner) (le_refl _)
    refine ⟨hsum.rowCount, hsum.columnCount, fun i hi => ?_⟩
    rw [hsum.rows i hi]
    have hfull := le_divCeil_mul (n := stripeBits) (d := innerStripeBits) (by decide)
    rw [min_eq_right hfull]
    rcases eq_or_ne i rowIndex with rfl | hne
    · rw [Function.update_self, if_pos (lt_succ_self i)]
    · rw [Function.update_of_ne hne]
      congr 2
      exact if_congr (by omega) rfl rfl

theorem Sums.addStripe (leftTransposed : AlignedBitMatrix)
    (hcolumns : leftTransposed.columnCount = left.rowCount)
    (hentries : ∀ i < left.rowCount, ∀ k < leftTransposed.rowCount,
      leftTransposed.get k i = (left.row i).index k) {state : AlignedBitMatrix × RowStripeTable}
    {s : ℕ}
    (h : Sums left right (fun _ => min (s * superStripeBits) leftTransposed.rowCount) state.1)
    (htable : state.2.HasShape) (hs : s < divCeil leftTransposed.rowCount superStripeBits) :
    Sums left right (fun _ => min ((s + 1) * superStripeBits) leftTransposed.rowCount)
        (M4ri.addStripe leftTransposed right state s).1 ∧
      (M4ri.addStripe leftTransposed right state s).2.HasShape := by
  have hstart := lt_of_lt_divCeil hs
  obtain ⟨hshape, hsums⟩ := htable.populate right (s * superStripeBits)
    (min superStripeBits (leftTransposed.rowCount - s * superStripeBits))
  refine ⟨?_, hshape⟩
  have hrows : min (s * superStripeBits) leftTransposed.rowCount = s * superStripeBits := by omega
  have hnext : min ((s + 1) * superStripeBits) leftTransposed.rowCount = s * superStripeBits +
      min superStripeBits (leftTransposed.rowCount - s * superStripeBits) := by
    rw [succ_mul]
    omega
  have hextracts := StripeColumnExtractor.extracts_new leftTransposed (s * superStripeBits)
    (min superStripeBits (leftTransposed.rowCount - s * superStripeBits))
  rw [hrows] at h
  rw [hnext, M4ri.addStripe, hextracts.numInnerStripes]
  refine Sums.multiplyStripes hsums hcolumns (fun i hi offset hoffset => ?_) hextracts
    (zero_add _) ?_
  · exact hentries i hi _ (by omega)
  · exact h

end Sums

theorem index_combine_low (g : ℕ → Bits) (v : Bits) (n j : ℕ) :
    (Bits.combine g (Bits.low n v)).index j = xorSum n fun k => v.index k && (g k).index j := by
  induction n with
  | zero =>
    have hzero : Bits.low 0 v = 0 := ext_index fun i => by simp
    rw [hzero, combine_zero, index_zero, xorSum_zero]
  | succ n ih =>
    have hbit : shiftDown n (Bits.low (n + 1) v) = if v.index n then unit 0 else 0 := by
      refine ext_index fun i => ?_
      rw [index_shiftDown, index_low]
      cases i with
      | zero => cases v.index n <;> simp
      | succ i => split_ifs <;> simp
    rw [combine_low_add, hbit, index_add, ih, xorSum_succ]
    cases v.index n <;> simp

/-- The entry of the product of two matrices: a sum of products of bits. -/
def naiveEntry (left right : AlignedBitMatrix) (i j : ℕ) : Bool :=
  Bits.xorSum left.columnCount fun k => left.get i k && right.get k j

theorem get_dot {left right : AlignedBitMatrix} {i : ℕ} (hi : i < left.rowCount) (j : ℕ) :
    (left.dot right).get i j = naiveEntry left right i j := by
  rw [AlignedBitMatrix.get, row_dot _ _ hi]
  exact index_combine_low _ _ _ _

theorem sums_foldl_addStripe (left right : AlignedBitMatrix) (n : ℕ)
    (hn : n ≤ divCeil left.columnCount superStripeBits) :
    let state := (List.range n).foldl (addStripe left.transposedTiles right)
      (zeros left.rowCount right.columnCount, RowStripeTable.new right.columnCount)
    Sums left right (fun _ => min (n * superStripeBits) left.columnCount) state.1 ∧
      state.2.HasShape := by
  have hshape := (addsTiles_transposedTiles left).shape
  induction n with
  | zero =>
    refine ⟨⟨rowCount_zeros _ _, rfl, fun i _ => ?_⟩, RowStripeTable.hasShape_new _⟩
    have hzero : Bits.low (min (0 * superStripeBits) left.columnCount) (left.row i) = 0 :=
      ext_index fun j => by simp
    rw [hzero, combine_zero]
    exact row_zeros _ _ _
  | succ n ih =>
    obtain ⟨hsum, htable⟩ := ih (by omega)
    rw [range_succ, foldl_append, foldl_cons, foldl_nil]
    have hstep := Sums.addStripe left.transposedTiles (s := n) hshape.2
      (fun i hi k hk => ?_) (by rw [hshape.1]; exact hsum) htable (by rw [hshape.1]; omega)
    · rw [hshape.1] at hstep
      exact hstep
    · rw [hshape.1] at hk
      exact get_transposedTiles
        (lt_of_lt_of_le hi (le_rowstrideOf left.rowCount)) hk

theorem mul_eq_dot {left right : AlignedBitMatrix} (hfit : left.columnCount = right.rowCount) :
    ∃ product, mul left right = some product ∧
      product.rowCount = left.rowCount ∧ product.columnCount = right.columnCount ∧
        ∀ i j, i < left.rowCount → j < right.columnCount →
          product.get i j = (left.dot right).get i j := by
  by_cases hempty : left.columnCount = 0 ∨ right.columnCount = 0
  · refine ⟨zeros left.rowCount right.columnCount, ?_, rowCount_zeros _ _, rfl, fun i j hi hj => ?_⟩
    · rw [mul, if_neg fun h => h hfit]
      exact if_pos hempty
    · have hzero : left.columnCount = 0 := by omega
      rw [get_dot hi, naiveEntry, hzero, xorSum_zero, AlignedBitMatrix.get, row_zeros, index_zero]
  · obtain ⟨hsum, _⟩ := sums_foldl_addStripe left right
      (divCeil left.columnCount superStripeBits) (le_refl _)
    have hfull := le_divCeil_mul (n := left.columnCount) (d := superStripeBits) (by decide)
    rw [min_eq_right hfull] at hsum
    refine ⟨_, ?_, hsum.rowCount, hsum.columnCount, fun i j hi _ => ?_⟩
    · rw [mul, if_neg fun h => h hfit]
      exact if_neg hempty
    · rw [AlignedBitMatrix.get, hsum.rows i hi, AlignedBitMatrix.get, row_dot _ _ hi]

/-- The product of two matrices whose shapes fit has the shape and the entries of the product over
GF(2). -/
theorem mul_eq_naive {left right : AlignedBitMatrix} (hfit : left.columnCount = right.rowCount) :
    ∃ product, mul left right = some product ∧
      product.rowCount = left.rowCount ∧ product.columnCount = right.columnCount ∧
        ∀ i j, i < left.rowCount → j < right.columnCount →
          product.get i j = naiveEntry left right i j := by
  obtain ⟨product, hproduct, hrows, hcolumns, hentries⟩ := mul_eq_dot hfit
  refine ⟨product, hproduct, hrows, hcolumns, fun i j hi hj => ?_⟩
  rw [hentries i j hi hj, get_dot hi]

/-- Two ones in a row times two ones in a column are zero. -/
theorem mul_eq_naive_ones :
    ∃ product, mul (AlignedBitMatrix.ones 1 2) (AlignedBitMatrix.ones 2 1) = some product ∧
      product.get 0 0 = false := by
  obtain ⟨product, hproduct, _, _, hentries⟩ := mul_eq_naive
    (show (ones 1 2).columnCount = (ones 2 1).rowCount from rfl)
  refine ⟨product, hproduct, ?_⟩
  rw [hentries 0 0 (by decide) (by decide)]
  decide +kernel

end M4ri

end QdkEc
