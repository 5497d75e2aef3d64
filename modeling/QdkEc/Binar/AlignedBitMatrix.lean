import QdkEc.Lib.Bits

/-!
# Aligned bit matrices

This module models `AlignedBitMatrix`: the words of the physical rows, one
pointer to a physical row for every logical row, and the number of columns.  The
words of a row reach beyond the last column; those bits are its padding.
-/

namespace QdkEc

open List

/-- A bit matrix whose logical rows point to distinct physical rows. -/
structure AlignedBitMatrix where
  blocks : List Bits
  rows : List ℕ
  columnCount : ℕ
  rows_nodup : rows.Nodup
  rows_lt : ∀ r ∈ rows, r < blocks.length

namespace AlignedBitMatrix

def blockBitLen : ℕ :=
  512

/-- The number of blocks that store one row. -/
def rowstrideOf (columnCount : ℕ) : ℕ :=
  columnCount / blockBitLen + if columnCount % blockBitLen = 0 then 0 else 1

/-- The number of logical rows. -/
def rowCount (m : AlignedBitMatrix) : ℕ :=
  m.rows.length

/-- Rows stored one after the other, every pointer at its own row. -/
def fromBlocks (blocks : List Bits) (columnCount : ℕ) : AlignedBitMatrix where
  blocks := blocks
  rows := List.range blocks.length
  columnCount := columnCount
  rows_nodup := nodup_range
  rows_lt _ hr := mem_range.mp hr

def zeros (rowCount columnCount : ℕ) : AlignedBitMatrix :=
  fromBlocks (List.replicate rowCount 0) columnCount

/-- The matrix whose stored blocks are all ones, padding included. -/
def ones (rowCount columnCount : ℕ) : AlignedBitMatrix :=
  fromBlocks (List.replicate rowCount ⟨2 ^ (rowstrideOf columnCount * blockBitLen) - 1⟩) columnCount

/-- The words of a logical row. -/
def row (m : AlignedBitMatrix) (i : ℕ) : Bits :=
  match m.rows[i]? with
  | some r => m.blocks.getD r 0
  | none => 0

/-- Overwrite the words of a logical row. -/
def setRow (m : AlignedBitMatrix) (i : ℕ) (b : Bits) : AlignedBitMatrix where
  blocks := match m.rows[i]? with
    | some r => m.blocks.set r b
    | none => m.blocks
  rows := m.rows
  columnCount := m.columnCount
  rows_nodup := m.rows_nodup
  rows_lt r hr := by
    cases m.rows[i]? with
    | none => exact m.rows_lt r hr
    | some s => simpa using m.rows_lt r hr

variable {a b : ℕ}

section SwapEntries

variable {α : Type*}

/-- Exchange two entries of a list. -/
def swapEntries (l : List α) (a b : ℕ) : List α :=
  match l[a]?, l[b]? with
  | some x, some y => (l.set a y).set b x
  | _, _ => l

theorem length_swapEntries (l : List α) (a b : ℕ) : (swapEntries l a b).length = l.length := by
  unfold swapEntries
  split <;> simp

variable {l : List α}

theorem getElem?_swapEntries (ha : a < l.length) (hb : b < l.length) (j : ℕ) :
    (swapEntries l a b)[j]? = l[Equiv.swap a b j]? := by
  have hentries : swapEntries l a b = (l.set a l[b]).set b l[a] := by simp [swapEntries, ha, hb]
  rw [hentries, getElem?_set, getElem?_set, Equiv.swap_apply_def]
  by_cases hjb : b = j
  · subst hjb
    by_cases hab : b = a
    · subst hab
      simp [hb]
    · simp [hab, ha, hb]
  · by_cases hja : a = j
    · subst hja
      simp [hjb, ha, hb]
    · simp [hja, hjb, Ne.symm hja, Ne.symm hjb]

theorem getD_swapEntries (ha : a < l.length) (hb : b < l.length) (j : ℕ) (d : α) :
    (swapEntries l a b).getD j d = l.getD (Equiv.swap a b j) d := by
  rw [getD_eq_getElem?_getD, getElem?_swapEntries ha hb, ← getD_eq_getElem?_getD]

theorem mem_of_mem_swapEntries {r : α} (h : r ∈ swapEntries l a b) : r ∈ l := by
  unfold swapEntries at h
  split at h
  · rename_i x y hx hy
    rcases mem_or_eq_of_mem_set h with h | rfl
    · rcases mem_or_eq_of_mem_set h with h | rfl
      · exact h
      · exact mem_of_getElem? hy
    · exact mem_of_getElem? hx
  · exact h

theorem nodup_swapEntries (hl : l.Nodup) (a b : ℕ) : (swapEntries l a b).Nodup := by
  by_cases hab : a < l.length ∧ b < l.length
  · obtain ⟨ha, hb⟩ := hab
    rw [nodup_iff_getElem?_ne_getElem?] at *
    intro i j hij hj heq
    rw [getElem?_swapEntries ha hb, getElem?_swapEntries ha hb] at heq
    rw [length_swapEntries] at hj
    have hlt : ∀ k, k < l.length → Equiv.swap a b k < l.length := by
      intro k hk
      rw [Equiv.swap_apply_def]
      split_ifs <;> assumption
    have hne : Equiv.swap a b i ≠ Equiv.swap a b j := by
      intro h
      have := (Equiv.swap a b).injective h
      omega
    rcases Nat.lt_or_gt_of_ne hne with h | h
    · exact hl _ _ h (hlt j hj) heq
    · exact hl _ _ h (hlt i (by omega)) heq.symm
  · have hself : swapEntries l a b = l := by
      unfold swapEntries
      split
      · rename_i x y hx hy
        obtain ⟨ha, _⟩ := List.getElem?_eq_some_iff.mp hx
        obtain ⟨hb, _⟩ := List.getElem?_eq_some_iff.mp hy
        exact absurd ⟨ha, hb⟩ hab
      · rfl
    rw [hself]
    exact hl

end SwapEntries

/-- Exchange two logical rows by exchanging their pointers. -/
def swapRows (m : AlignedBitMatrix) (a b : ℕ) : AlignedBitMatrix where
  blocks := m.blocks
  rows := swapEntries m.rows a b
  columnCount := m.columnCount
  rows_nodup := nodup_swapEntries m.rows_nodup a b
  rows_lt r hr := m.rows_lt r (mem_of_mem_swapEntries hr)

/-- Add one logical row into another, padding included. -/
def addIntoRow (m : AlignedBitMatrix) (toIndex fromIndex : ℕ) : AlignedBitMatrix :=
  m.setRow toIndex (m.row toIndex + m.row fromIndex)

@[simp]
theorem rowCount_setRow (m : AlignedBitMatrix) (i : ℕ) (b : Bits) :
    (m.setRow i b).rowCount = m.rowCount :=
  rfl

@[simp]
theorem columnCount_setRow (m : AlignedBitMatrix) (i : ℕ) (b : Bits) :
    (m.setRow i b).columnCount = m.columnCount :=
  rfl

@[simp]
theorem rowCount_swapRows (m : AlignedBitMatrix) (a b : ℕ) :
    (m.swapRows a b).rowCount = m.rowCount :=
  length_swapEntries m.rows a b

@[simp]
theorem columnCount_swapRows (m : AlignedBitMatrix) (a b : ℕ) :
    (m.swapRows a b).columnCount = m.columnCount :=
  rfl

@[simp]
theorem rowCount_addIntoRow (m : AlignedBitMatrix) (a b : ℕ) :
    (m.addIntoRow a b).rowCount = m.rowCount :=
  rfl

@[simp]
theorem columnCount_addIntoRow (m : AlignedBitMatrix) (a b : ℕ) :
    (m.addIntoRow a b).columnCount = m.columnCount :=
  rfl

@[simp]
theorem rowCount_fromBlocks (blocks : List Bits) (columnCount : ℕ) :
    (fromBlocks blocks columnCount).rowCount = blocks.length :=
  length_range

@[simp]
theorem rowCount_zeros (r c : ℕ) : (zeros r c).rowCount = r := by
  simp [zeros]

@[simp]
theorem columnCount_zeros (r c : ℕ) : (zeros r c).columnCount = c :=
  rfl

theorem row_of_le {m : AlignedBitMatrix} {i : ℕ} (h : m.rowCount ≤ i) : m.row i = 0 := by
  have hnone : m.rows[i]? = none :=
    getElem?_eq_none h
  simp [row, hnone]

@[simp]
theorem row_fromBlocks (blocks : List Bits) (columnCount i : ℕ) :
    (fromBlocks blocks columnCount).row i = blocks.getD i 0 := by
  by_cases h : i < blocks.length
  · simp [row, fromBlocks, h]
  · rw [row_of_le (by simpa using h), getD_eq_default]
    omega

@[simp]
theorem row_zeros (r c i : ℕ) : (zeros r c).row i = 0 := by
  by_cases h : i < r <;> simp [zeros, getD_eq_getElem?_getD, h]

theorem row_setRow {m : AlignedBitMatrix} {i : ℕ} (hi : i < m.rowCount) (b : Bits) (j : ℕ) :
    (m.setRow i b).row j = if j = i then b else m.row j := by
  have hget : m.rows[i]? = some m.rows[i] :=
    getElem?_eq_getElem hi
  have hlt : m.rows[i] < m.blocks.length :=
    m.rows_lt _ (getElem_mem hi)
  by_cases hji : j = i
  · subst hji
    simp [row, setRow, hget, hlt, getD_eq_getElem?_getD]
  · rw [if_neg hji]
    by_cases hj : j < m.rowCount
    · have hgetj : m.rows[j]? = some m.rows[j] :=
        getElem?_eq_getElem hj
      have hne : m.rows[i] ≠ m.rows[j] := by
        intro h
        exact hji ((List.Nodup.getElem_inj_iff m.rows_nodup).mp h).symm
      simp [row, setRow, hget, hgetj, getD_eq_getElem?_getD, hne]
    · rw [row_of_le (m := m) (by omega), row_of_le]
      simpa using hj

theorem row_swapRows {m : AlignedBitMatrix} (ha : a < m.rowCount) (hb : b < m.rowCount) (j : ℕ) :
    (m.swapRows a b).row j = m.row (Equiv.swap a b j) := by
  have hget := getElem?_swapEntries (l := m.rows) ha hb j
  simp only [row, swapRows, hget]

theorem row_addIntoRow {m : AlignedBitMatrix} {toIndex : ℕ} (h : toIndex < m.rowCount)
    (fromIndex j : ℕ) : (m.addIntoRow toIndex fromIndex).row j =
      if j = toIndex then m.row toIndex + m.row fromIndex else m.row j :=
  row_setRow h _ j

/-- The bit at a row and a column. -/
def get (m : AlignedBitMatrix) (i j : ℕ) : Bool :=
  (m.row i).index j

/-- Overwrite one bit of a bit set. -/
def assignIndex (b : Bits) (i : ℕ) (value : Bool) : Bits :=
  if b.index i = value then b else Bits.unit i + b

@[simp]
theorem index_assignIndex (b : Bits) (i : ℕ) (value : Bool) (j : ℕ) :
    (assignIndex b i value).index j = if i = j then value else b.index j := by
  unfold assignIndex
  split_ifs with h hij hij
  · subst hij
    exact h
  · rfl
  · cases value <;> simp_all
  · simp [hij]

/-- Overwrite the bit at a row and a column. -/
def set (m : AlignedBitMatrix) (i j : ℕ) (value : Bool) : AlignedBitMatrix :=
  m.setRow i (assignIndex (m.row i) j value)

def column (m : AlignedBitMatrix) (j : ℕ) : Bits :=
  Bits.fromIndices ((List.range m.rowCount).filter fun i => m.get i j)

@[simp]
theorem index_column (m : AlignedBitMatrix) (i j : ℕ) : (m.column j).index i = m.get i j := by
  by_cases h : i < m.rowCount
  · simp [column, h]
  · have hrow : m.row i = 0 := row_of_le (by omega)
    simp [column, h, get, hrow]

def identity (dimension : ℕ) : AlignedBitMatrix :=
  (List.range dimension).foldl (fun m i => m.set i i true) (zeros dimension dimension)

@[simp]
theorem rowCount_set (m : AlignedBitMatrix) (i j : ℕ) (value : Bool) :
    (m.set i j value).rowCount = m.rowCount :=
  rfl

@[simp]
theorem columnCount_set (m : AlignedBitMatrix) (i j : ℕ) (value : Bool) :
    (m.set i j value).columnCount = m.columnCount :=
  rfl

theorem get_set {m : AlignedBitMatrix} {i : ℕ} (hi : i < m.rowCount) (j : ℕ) (value : Bool)
    (i' j' : ℕ) : (m.set i j value).get i' j' = if i' = i ∧ j' = j then value else m.get i' j' := by
  unfold get set
  rw [row_setRow hi]
  by_cases hrow : i' = i
  · subst hrow
    simp [eq_comm (a := j)]
  · simp [hrow]

def copyRow (source target : AlignedBitMatrix) (r columns : ℕ) : AlignedBitMatrix :=
  (List.range columns).foldl (fun newMatrix c => newMatrix.set r c (source.get r c)) target

/-- Copy the entries into a zero matrix of new dimensions. -/
def resize (m : AlignedBitMatrix) (newRows newCols : ℕ) : AlignedBitMatrix :=
  if newRows = m.rowCount ∧ newCols = m.columnCount then m
  else
    (List.range m.rowCount).foldl (fun newMatrix r => copyRow m newMatrix r m.columnCount)
      (zeros newRows newCols)

theorem get_copyRow (source target : AlignedBitMatrix) {r : ℕ} (hr : r < target.rowCount)
    (columns : ℕ) : ((copyRow source target r columns).rowCount = target.rowCount ∧
      (copyRow source target r columns).columnCount = target.columnCount) ∧
        ∀ i j, (copyRow source target r columns).get i j =
          if i = r ∧ j < columns then source.get r j else target.get i j := by
  unfold copyRow
  induction columns with
  | zero => simp
  | succ k ih =>
    obtain ⟨⟨hrows, hcolumns⟩, hget⟩ := ih
    rw [range_succ, foldl_append, foldl_cons, foldl_nil]
    refine ⟨⟨hrows, hcolumns⟩, fun i j => ?_⟩
    rw [get_set (by omega), hget]
    rcases Nat.lt_trichotomy j k with hj | rfl | hj
    · simp [show j ≠ k by omega, hj, show j < k + 1 by omega]
    · by_cases hi : i = r <;> simp [hi]
    · simp [show j ≠ k by omega, show ¬ j < k by omega, show ¬ j < k + 1 by omega]

theorem get_copyRows (source target : AlignedBitMatrix) {rows : ℕ} (hrows : rows ≤ target.rowCount)
    (columns : ℕ) :
    let copied := (List.range rows).foldl
      (fun newMatrix r => copyRow source newMatrix r columns) target
    (copied.rowCount = target.rowCount ∧ copied.columnCount = target.columnCount) ∧
      ∀ i j, copied.get i j =
        if i < rows ∧ j < columns then source.get i j else target.get i j := by
  induction rows with
  | zero => simp
  | succ k ih =>
    obtain ⟨⟨hcount, hcolumns⟩, hget⟩ := ih (by omega)
    simp only [range_succ, foldl_append, foldl_cons, foldl_nil]
    obtain ⟨⟨hcount', hcolumns'⟩, hget'⟩ := get_copyRow source
      ((List.range k).foldl (fun newMatrix r => copyRow source newMatrix r columns) target)
      (r := k) (by omega) columns
    refine ⟨⟨hcount'.trans hcount, hcolumns'.trans hcolumns⟩, fun i j => ?_⟩
    rw [hget', hget]
    rcases Nat.lt_trichotomy i k with hi | rfl | hi
    · simp [show i ≠ k by omega, hi, show i < k + 1 by omega]
    · simp
    · simp [show i ≠ k by omega, show ¬ i < k by omega, show ¬ i < k + 1 by omega]

section Resize

variable (m : AlignedBitMatrix) {newRows : ℕ} (hrows : m.rowCount ≤ newRows) (newCols : ℕ)

include hrows

theorem counts_resize : (m.resize newRows newCols).rowCount = newRows ∧
      (m.resize newRows newCols).columnCount = newCols := by
  unfold resize
  split_ifs with hsame
  · exact ⟨hsame.1.symm, hsame.2.symm⟩
  · have hcopied := (get_copyRows m (zeros newRows newCols)
      (show m.rowCount ≤ _ by simpa using hrows) m.columnCount).1
    simpa using hcopied

theorem row_resize (hclear : ∀ i, (m.row i).Below m.columnCount) (i : ℕ) :
    (m.resize newRows newCols).row i = m.row i := by
  unfold resize
  split_ifs with hsame
  · rfl
  · have hcopied := (get_copyRows m (zeros newRows newCols)
      (show m.rowCount ≤ _ by simpa using hrows) m.columnCount).2
    refine Bits.ext_index fun j => ?_
    have hget := hcopied i j
    unfold get at hget
    rw [hget, row_zeros, Bits.index_zero]
    split_ifs with hij
    · rfl
    · by_cases hi : i < m.rowCount
      · exact ((hclear i).index_eq_false (by omega)).symm
      · rw [row_of_le (by omega), Bits.index_zero]

end Resize

end AlignedBitMatrix

end QdkEc
