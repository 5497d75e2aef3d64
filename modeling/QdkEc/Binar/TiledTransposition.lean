import QdkEc.Binar.TransposeKernel
import QdkEc.Binar.WordSerialization

/-!
# Transposition by tiles

This module models `transposed` as it is computed: tiles of 64 words are read
through the row pointers, transposed and written, with fewer words read and
written at the edges.
-/

namespace QdkEc

open List

namespace AlignedBitMatrix

def rowWord (m : AlignedBitMatrix) (i w : ℕ) : Word :=
  (rowWords m.columnCount (m.row i)).getD w 0

def setRowWord (m : AlignedBitMatrix) (i w : ℕ) (value : Word) : AlignedBitMatrix :=
  m.setRow i (Bits.ofWords ((rowWords m.columnCount (m.row i)).set w value))

def readTileRows (rowCount : ℕ) (matrix : AlignedBitMatrix) (blockRow blockCol : ℕ)
    (tile : ℕ → Word) :
    ℕ → Word :=
  (List.range rowCount).foldl (fun tile offset =>
    Function.update tile offset (matrix.rowWord (blockRow * 64 + offset) blockCol)) tile

def read64x64Tile : AlignedBitMatrix → ℕ → ℕ → (ℕ → Word) → ℕ → Word :=
  readTileRows 64

/-- Read a tile at the edge, with fewer rows. -/
def read64x64TilePartial (matrix : AlignedBitMatrix) (blockRow blockCol : ℕ) (tile : ℕ → Word)
    (rowCount : ℕ) :
    ℕ → Word :=
  readTileRows rowCount matrix blockRow blockCol tile

def writeTileRows (columnCount : ℕ) (matrix : AlignedBitMatrix) (blockRow blockCol : ℕ)
    (tile : ℕ → Word) :
    AlignedBitMatrix :=
  (List.range columnCount).foldl (fun matrix offset =>
    matrix.setRowWord (blockCol * 64 + offset) blockRow (tile offset)) matrix

def write64x64Tile : AlignedBitMatrix → ℕ → ℕ → (ℕ → Word) → AlignedBitMatrix :=
  writeTileRows 64

/-- Write a tile at the edge, with fewer columns. -/
def write64x64TilePartial (matrix : AlignedBitMatrix) (blockRow blockCol : ℕ) (tile : ℕ → Word)
    (columnCount : ℕ) :
    AlignedBitMatrix :=
  writeTileRows columnCount matrix blockRow blockCol tile

/-- Transpose a full tile of the matrix into the result, reusing the tile. -/
def transposeTile (m : AlignedBitMatrix) (blockRow blockCol : ℕ)
    (state : AlignedBitMatrix × (ℕ → Word)) :
    AlignedBitMatrix × (ℕ → Word) :=
  let tile := transpose64x64Inplace (read64x64Tile m blockRow blockCol state.2)
  (write64x64Tile state.1 blockRow blockCol tile, tile)

/-- Transpose a tile with fewer columns into the result, reusing the tile. -/
def transposeTilePartial (m : AlignedBitMatrix) (remainderCols : ℕ) (blockRow blockCol : ℕ)
    (state : AlignedBitMatrix × (ℕ → Word)) :
    AlignedBitMatrix × (ℕ → Word) :=
  let tile := transpose64x64Inplace (read64x64Tile m blockRow blockCol state.2)
  (write64x64TilePartial state.1 blockRow blockCol tile remainderCols, tile)

def transposedTiles (m : AlignedBitMatrix) : AlignedBitMatrix :=
  let res := zeros m.columnCount m.rowCount
  let fullRowBlocks := m.rowCount / 64
  let remainderRows := m.rowCount % 64
  let fullColBlocks := m.columnCount / 64
  let remainderCols := m.columnCount % 64
  let res := ((List.range fullRowBlocks).foldl (fun state blockRow =>
    (List.range fullColBlocks).foldl (fun state blockCol =>
      transposeTile m blockRow blockCol state) state) (res, fun _ => 0)).1
  let res :=
    if 0 < remainderCols then
      ((List.range fullRowBlocks).foldl (fun state blockRow =>
        transposeTilePartial m remainderCols blockRow fullColBlocks state) (res, fun _ => 0)).1
    else res
  if 0 < remainderRows then
    let res := (List.range fullColBlocks).foldl (fun res blockCol =>
      write64x64Tile res fullRowBlocks blockCol (transpose64x64Inplace
        (read64x64TilePartial m fullRowBlocks blockCol (fun _ => 0) remainderRows))) res
    if 0 < remainderCols then
      write64x64TilePartial res fullRowBlocks fullColBlocks (transpose64x64Inplace
        (read64x64TilePartial m fullRowBlocks fullColBlocks (fun _ => 0) remainderRows))
        remainderCols
    else res
  else res

section Words

variable {m : AlignedBitMatrix}

def rowWordCount (m : AlignedBitMatrix) : ℕ :=
  rowstrideOf m.columnCount * bitBlockWordCount

theorem getLsbD_rowWord {i w j : ℕ} (hw : w < m.rowWordCount) (hj : j < 64) :
    (m.rowWord i w).getLsbD j = m.get i (64 * w + j) := by
  have hlength : w < (rowWords m.columnCount (m.row i)).length := by
    rw [length_rowWords]
    exact hw
  rw [rowWord, getD_eq_getElem _ _ hlength]
  simp only [rowWords, getElem_map, getElem_range, BitVec.getLsbD_ofNat]
  rw [decide_eq_true hj, Bool.true_and]
  exact Bits.index_shiftDown _ _ _

theorem div_lt_rowWordCount {j : ℕ} (hj : j < m.columnCount) : j / 64 < m.rowWordCount := by
  have hle := le_rowstrideOf m.columnCount
  unfold rowWordCount bitBlockWordCount
  unfold blockBitLen at hle
  omega

theorem get_setRowWord {i w : ℕ} (hi : i < m.rowCount) (hw : w < m.rowWordCount) (value : Word)
    (i' : ℕ) {j : ℕ} (hj : j / 64 < m.rowWordCount) : (m.setRowWord i w value).get i' j =
      if i' = i ∧ j / 64 = w then value.getLsbD (j % 64) else m.get i' j := by
  rw [get, setRowWord, row_setRow hi]
  rcases eq_or_ne i' i with rfl | hi'
  · have hlength : j / 64 < (rowWords m.columnCount (m.row i')).length := by
      rw [length_rowWords]
      exact hj
    rw [if_pos rfl, Bits.index_ofWords, getD_eq_getElem?_getD, getElem?_set]
    rcases eq_or_ne w (j / 64) with hword | hword
    · subst hword
      rw [if_pos rfl, if_pos hlength, if_pos ⟨rfl, rfl⟩, Option.getD_some]
    · rw [if_neg hword, if_neg fun h => hword h.2.symm, ← getD_eq_getElem?_getD]
      have hread := getLsbD_rowWord (m := m) (i := i') hj (Nat.mod_lt j (by decide : 0 < 64))
      rw [Nat.div_add_mod] at hread
      exact hread
  · rw [if_neg hi', if_neg fun h => hi' h.1]
    rfl

end Words

theorem readTileRows_eq (rowCount : ℕ) (matrix : AlignedBitMatrix) (blockRow blockCol : ℕ)
    (tile : ℕ → Word) (offset : ℕ) : readTileRows rowCount matrix blockRow blockCol tile offset =
      if offset < rowCount then matrix.rowWord (blockRow * 64 + offset) blockCol else tile offset :=
  foldl_update_range (fun offset _ => matrix.rowWord (blockRow * 64 + offset) blockCol) _ _ _

theorem get_writeTileRows {res : AlignedBitMatrix} {columnCount blockRow blockCol : ℕ}
    (hcolumns : blockCol * 64 + columnCount ≤ res.rowCount) (hword : blockRow < res.rowWordCount)
    (tile : ℕ → Word) :
    let written := writeTileRows columnCount res blockRow blockCol tile
    (written.rowCount = res.rowCount ∧ written.columnCount = res.columnCount) ∧
      ∀ j i, i / 64 < res.rowWordCount → written.get j i =
        if (blockCol * 64 ≤ j ∧ j < blockCol * 64 + columnCount) ∧ i / 64 = blockRow then
          (tile (j - blockCol * 64)).getLsbD (i % 64)
        else res.get j i := by
  unfold writeTileRows
  induction columnCount with
  | zero =>
    refine ⟨⟨rfl, rfl⟩, fun j i _ => ?_⟩
    rw [if_neg (by omega)]
    rfl
  | succ n ih =>
    obtain ⟨⟨hrows, hcols⟩, hget⟩ := ih (by omega)
    rw [range_succ, foldl_append, foldl_cons, foldl_nil]
    set written := (List.range n).foldl (fun matrix offset =>
      matrix.setRowWord (blockCol * 64 + offset) blockRow (tile offset)) res with hwritten
    have hcount : written.rowWordCount = res.rowWordCount := by
      rw [rowWordCount, hcols, rowWordCount]
    refine ⟨⟨hrows, hcols⟩, fun j i hi => ?_⟩
    rw [get_setRowWord (by omega) (by omega) _ _ (by omega), hget j i hi]
    rcases eq_or_ne j (blockCol * 64 + n) with rfl | hj
    · rw [Nat.add_sub_cancel_left]
      by_cases hblock : i / 64 = blockRow
      · rw [if_pos ⟨rfl, hblock⟩, if_pos (by omega)]
      · rw [if_neg (by omega), if_neg (by omega), if_neg (by omega)]
    · rw [if_neg (by omega)]
      exact if_congr (by omega) rfl rfl

def HasTransposedShape (m res : AlignedBitMatrix) : Prop :=
  res.rowCount = m.columnCount ∧ res.columnCount = m.rowCount

/-- The bits of a tile, also those of its padding, are those of the transposed matrix. -/
def HoldsTile (m res : AlignedBitMatrix) (tile : ℕ × ℕ) : Prop :=
  ∀ i j, i / 64 < res.rowWordCount → j < m.columnCount → i / 64 = tile.1 → j / 64 = tile.2 →
    res.get j i = m.get i j

/-- From one result to the next, tiles are added and none is lost. -/
structure AddsTiles (m res next : AlignedBitMatrix) (tiles : Set (ℕ × ℕ)) : Prop where
  shape : HasTransposedShape m next
  kept : ∀ tile, HoldsTile m res tile → HoldsTile m next tile
  added : ∀ tile ∈ tiles, HoldsTile m next tile

section Tiles

variable {m res : AlignedBitMatrix}

theorem getLsbD_readTileRows {rowCount blockRow blockCol : ℕ} {tile : ℕ → Word}
    (hword : blockCol < m.rowWordCount)
    (hbelow : ∀ r < 64, rowCount ≤ r → m.rowCount ≤ blockRow * 64 + r ∧ tile r = 0) {r c : ℕ}
    (hr : r < 64) (hc : c < 64) : (readTileRows rowCount m blockRow blockCol tile r).getLsbD c =
      m.get (blockRow * 64 + r) (64 * blockCol + c) := by
  rw [readTileRows_eq]
  by_cases hrow : r < rowCount
  · rw [if_pos hrow, getLsbD_rowWord hword hc]
  · obtain ⟨hout, hzero⟩ := hbelow r hr (by omega)
    rw [if_neg hrow, hzero, get, row_of_le hout]
    simp

theorem addsTiles_writeTileRows {rowCount columnCount blockRow blockCol : ℕ} {tile : ℕ → Word}
    (hshape : HasTransposedShape m res) (hrow : blockRow * 64 < m.rowCount)
    (hcol : blockCol * 64 < m.columnCount)
    (hbelow : ∀ r < 64, rowCount ≤ r → m.rowCount ≤ blockRow * 64 + r ∧ tile r = 0)
    (hcolumns : blockCol * 64 + columnCount ≤ m.columnCount)
    (hcovers : ∀ c < 64, blockCol * 64 + c < m.columnCount → c < columnCount)
    (hwidth : columnCount ≤ 64) : AddsTiles m res (writeTileRows columnCount res blockRow blockCol
        (transpose64x64Inplace (readTileRows rowCount m blockRow blockCol tile)))
      {(blockRow, blockCol)} := by
  have hsource : blockCol < m.rowWordCount := by
    have := div_lt_rowWordCount hcol
    omega
  have hblock : blockRow < res.rowWordCount := by
    have := div_lt_rowWordCount (m := res) (j := blockRow * 64) (by rw [hshape.2]; exact hrow)
    omega
  obtain ⟨⟨hrows, hcols⟩, hget⟩ := get_writeTileRows (by rw [hshape.1]; exact hcolumns) hblock
    (transpose64x64Inplace (readTileRows rowCount m blockRow blockCol tile))
  have htile : ∀ i j, i / 64 = blockRow → blockCol * 64 ≤ j → j < blockCol * 64 + columnCount →
      (transpose64x64Inplace (readTileRows rowCount m blockRow blockCol tile)
        (j - blockCol * 64)).getLsbD (i % 64) = m.get i j := by
    intro i j hi hj hlt
    rw [getLsbD_transpose64x64Inplace (by omega) (by omega),
      getLsbD_readTileRows hsource hbelow (by omega) (by omega)]
    congr 1 <;> omega
  have hcount : ∀ {i}, i / 64 < (writeTileRows columnCount res blockRow blockCol
      (transpose64x64Inplace (readTileRows rowCount m blockRow blockCol tile))).rowWordCount →
      i / 64 < res.rowWordCount := by
    intro i hi
    rwa [rowWordCount, hcols] at hi
  refine ⟨⟨hrows.trans hshape.1, hcols.trans hshape.2⟩, ?_, ?_⟩
  · intro other hother i j hi hj hi' hj'
    rw [hget j i (hcount hi)]
    split_ifs with hin
    · exact htile i j hin.2 hin.1.1 hin.1.2
    · exact hother i j (hcount hi) hj hi' hj'
  · rintro _ rfl i j hi hj hi' hj'
    have hcover := hcovers (j % 64) (by omega) (by omega)
    rw [hget j i (hcount hi), if_pos ⟨by omega, hi'⟩]
    exact htile i j hi' (by omega) (by omega)

theorem addsTiles_foldl {σ : Type} (result : σ → AlignedBitMatrix) (step : σ → ℕ → σ)
    (tiles : ℕ → Set (ℕ × ℕ)) {n : ℕ}
    (hstep : ∀ k < n, ∀ state, HasTransposedShape m (result state) →
      AddsTiles m (result state) (result (step state k)) (tiles k)) (state : σ)
    (hshape : HasTransposedShape m (result state)) :
    AddsTiles m (result state) (result ((List.range n).foldl step state))
      {tile | ∃ k < n, tile ∈ tiles k} := by
  induction n with
  | zero =>
    refine ⟨hshape, fun _ h => h, ?_⟩
    rintro tile ⟨k, hk, _⟩
    omega
  | succ n ih =>
    rw [range_succ, foldl_append, foldl_cons, foldl_nil]
    have hloop := ih (fun k hk => hstep k (by omega))
    have hlast := hstep n (Nat.lt_succ_self n) _ hloop.shape
    refine ⟨hlast.shape, fun tile h => hlast.kept tile (hloop.kept tile h), ?_⟩
    rintro tile ⟨k, hk, htile⟩
    rcases Nat.lt_succ_iff_lt_or_eq.mp hk with hlt | rfl
    · exact hlast.kept tile (hloop.added tile ⟨k, hlt, htile⟩)
    · exact hlast.added tile htile

theorem AddsTiles.trans {next last : AlignedBitMatrix} {tiles others : Set (ℕ × ℕ)}
    (h : AddsTiles m res next tiles) (hlast : AddsTiles m next last others) :
    AddsTiles m res last (tiles ∪ others) where
  shape := hlast.shape
  kept tile htile := hlast.kept tile (h.kept tile htile)
  added tile htile := htile.elim (fun htile => hlast.kept tile (h.added tile htile))
    (hlast.added tile)

theorem AddsTiles.mono {next : AlignedBitMatrix} {tiles others : Set (ℕ × ℕ)}
    (h : AddsTiles m res next others) (hsub : tiles ⊆ others) : AddsTiles m res next tiles where
  shape := h.shape
  kept := h.kept
  added tile htile := h.added tile (hsub htile)

theorem addsTiles_full (hshape : HasTransposedShape m res) (state : ℕ → Word) : AddsTiles m res
      ((List.range (m.rowCount / 64)).foldl (fun state blockRow =>
        (List.range (m.columnCount / 64)).foldl (fun state blockCol =>
          transposeTile m blockRow blockCol state) state) (res, state)).1
      {tile | ∃ i < m.rowCount / 64, tile ∈
        {tile | ∃ j < m.columnCount / 64, tile ∈ ({(i, j)} : Set (ℕ × ℕ))}} := by
  refine addsTiles_foldl Prod.fst _ _ (fun i hi state hstate => ?_) (res, state) hshape
  refine addsTiles_foldl Prod.fst _ _ (fun j hj state hstate => ?_) state hstate
  exact addsTiles_writeTileRows hstate (by omega) (by omega) (by omega) (by omega) (by omega)
    (by omega)

theorem addsTiles_lastColumns (hshape : HasTransposedShape m res) (hcols : 0 < m.columnCount % 64)
    (state : ℕ → Word) : AddsTiles m res
      ((List.range (m.rowCount / 64)).foldl (fun state blockRow =>
        transposeTilePartial m (m.columnCount % 64) blockRow (m.columnCount / 64) state)
        (res, state)).1
      {tile | ∃ i < m.rowCount / 64, tile ∈ ({(i, m.columnCount / 64)} : Set (ℕ × ℕ))} := by
  refine addsTiles_foldl Prod.fst _ _ (fun i hi state hstate => ?_) (res, state) hshape
  exact addsTiles_writeTileRows hstate (by omega) (by omega) (by omega) (by omega) (by omega)
    (by omega)

theorem addsTiles_lastRows (hshape : HasTransposedShape m res) (hrows : 0 < m.rowCount % 64) :
    AddsTiles m res ((List.range (m.columnCount / 64)).foldl (fun res blockCol =>
        write64x64Tile res (m.rowCount / 64) blockCol (transpose64x64Inplace
          (read64x64TilePartial m (m.rowCount / 64) blockCol (fun _ => 0) (m.rowCount % 64)))) res)
      {tile | ∃ j < m.columnCount / 64, tile ∈ ({(m.rowCount / 64, j)} : Set (ℕ × ℕ))} := by
  refine addsTiles_foldl (fun res => res) _ _ (fun j hj state hstate => ?_) res hshape
  exact addsTiles_writeTileRows hstate (by omega) (by omega)
    (fun r _ hr => ⟨by omega, rfl⟩) (by omega) (by omega) (by omega)

theorem addsTiles_corner (hshape : HasTransposedShape m res) (hrows : 0 < m.rowCount % 64)
    (hcols : 0 < m.columnCount % 64) : AddsTiles m res
      (write64x64TilePartial res (m.rowCount / 64) (m.columnCount / 64) (transpose64x64Inplace
        (read64x64TilePartial m (m.rowCount / 64) (m.columnCount / 64) (fun _ => 0)
          (m.rowCount % 64))) (m.columnCount % 64)) {(m.rowCount / 64, m.columnCount / 64)} :=
  addsTiles_writeTileRows hshape (by omega) (by omega)
    (fun r _ hr => ⟨by omega, rfl⟩) (by omega) (by omega) (by omega)

end Tiles

theorem holdsTile_zeros (m : AlignedBitMatrix) {tile : ℕ × ℕ} (hbelow : m.rowCount ≤ tile.1 * 64) :
    HoldsTile m (zeros m.columnCount m.rowCount) tile := by
  intro i j _ _ hi _
  rw [get, row_zeros, get, row_of_le (by omega), Bits.index_zero, Bits.index_zero]

theorem hasTransposedShape_zeros (m : AlignedBitMatrix) :
    HasTransposedShape m (zeros m.columnCount m.rowCount) :=
  ⟨rowCount_zeros _ _, rfl⟩

theorem addsTiles_transposedTiles (m : AlignedBitMatrix) :
    AddsTiles m (zeros m.columnCount m.rowCount) (transposedTiles m)
      {tile | tile.1 * 64 < m.rowCount ∧ tile.2 * 64 < m.columnCount} := by
  have hfull := addsTiles_full (hasTransposedShape_zeros m) (fun _ => 0)
  unfold transposedTiles
  by_cases hcols : 0 < m.columnCount % 64
  · have hcolumns := hfull.trans (addsTiles_lastColumns hfull.shape hcols (fun _ => 0))
    by_cases hrows : 0 < m.rowCount % 64
    · have hlast := hcolumns.trans (addsTiles_lastRows hcolumns.shape hrows)
      simp only [if_pos hcols, if_pos hrows]
      refine (hlast.trans (addsTiles_corner hlast.shape hrows hcols)).mono ?_
      rintro ⟨i, j⟩ ⟨hi, hj⟩
      rcases Nat.lt_or_ge i (m.rowCount / 64) with hi' | hi'
      · rcases Nat.lt_or_ge j (m.columnCount / 64) with hj' | hj'
        · exact Or.inl (Or.inl (Or.inl ⟨i, hi', j, hj', rfl⟩))
        · obtain rfl : j = m.columnCount / 64 := by omega
          exact Or.inl (Or.inl (Or.inr ⟨i, hi', rfl⟩))
      · obtain rfl : i = m.rowCount / 64 := by omega
        rcases Nat.lt_or_ge j (m.columnCount / 64) with hj' | hj'
        · exact Or.inl (Or.inr ⟨j, hj', rfl⟩)
        · obtain rfl : j = m.columnCount / 64 := by omega
          exact Or.inr rfl
    · simp only [if_pos hcols, if_neg hrows]
      refine hcolumns.mono ?_
      rintro ⟨i, j⟩ ⟨hi, hj⟩
      rcases Nat.lt_or_ge j (m.columnCount / 64) with hj' | hj'
      · exact Or.inl ⟨i, by omega, j, hj', rfl⟩
      · obtain rfl : j = m.columnCount / 64 := by omega
        exact Or.inr ⟨i, by omega, rfl⟩
  · by_cases hrows : 0 < m.rowCount % 64
    · simp only [if_neg hcols, if_pos hrows]
      refine (hfull.trans (addsTiles_lastRows hfull.shape hrows)).mono ?_
      rintro ⟨i, j⟩ ⟨hi, hj⟩
      rcases Nat.lt_or_ge i (m.rowCount / 64) with hi' | hi'
      · exact Or.inl ⟨i, hi', j, by omega, rfl⟩
      · obtain rfl : i = m.rowCount / 64 := by omega
        exact Or.inr ⟨j, by omega, rfl⟩
    · simp only [if_neg hcols, if_neg hrows]
      refine hfull.mono ?_
      rintro ⟨i, j⟩ ⟨hi, hj⟩
      exact ⟨i, by omega, j, by omega, rfl⟩

theorem get_transposedTiles {m : AlignedBitMatrix} {i j : ℕ}
    (hi : i < rowstrideOf m.rowCount * blockBitLen) (hj : j < m.columnCount) :
    (transposedTiles m).get j i = m.get i j := by
  have htiles := addsTiles_transposedTiles m
  have hword : i / 64 < (transposedTiles m).rowWordCount := by
    rw [rowWordCount, htiles.shape.2]
    unfold blockBitLen at hi
    unfold bitBlockWordCount
    omega
  rcases Nat.lt_or_ge (i / 64 * 64) m.rowCount with hrow | hrow
  · exact htiles.added (i / 64, j / 64) ⟨hrow, by simp only; omega⟩ i j hword hj rfl rfl
  · exact htiles.kept (i / 64, j / 64) (holdsTile_zeros m hrow) i j hword hj rfl rfl

/-- The transposed matrix has the entries of the matrix, with rows and columns exchanged,
whatever the number of rows and columns, the row pointers and the padding; its own padding is
clear. -/
theorem transposedTiles_spec (m : AlignedBitMatrix) : (transposedTiles m).rowCount = m.columnCount ∧
      (transposedTiles m).columnCount = m.rowCount ∧ (∀ i j, i < m.rowCount → j < m.columnCount →
        (transposedTiles m).get j i = m.get i j) ∧
      ∀ i j, m.rowCount ≤ i → i < rowstrideOf m.rowCount * blockBitLen → j < m.columnCount →
        (transposedTiles m).get j i = false := by
  obtain ⟨hrows, hcols⟩ := (addsTiles_transposedTiles m).shape
  refine ⟨hrows, hcols, fun i j hi hj => ?_, fun i j hi hstored hj => ?_⟩
  · exact get_transposedTiles (lt_of_lt_of_le hi (le_rowstrideOf m.rowCount)) hj
  · rw [get_transposedTiles hstored hj, get, row_of_le hi, Bits.index_zero]

end AlignedBitMatrix

end QdkEc
