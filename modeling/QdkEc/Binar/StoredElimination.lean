import QdkEc.Binar.WordSerialization

/-!
# Elimination on stored rows

This module models the elimination in place as it walks over the stored rows: a
reduction visits the rows that are stored before the pivot row and then those
behind it, whatever logical rows they are.  It does what the elimination on
logical rows does, and on a matrix that is reduced already it does nothing.
-/

namespace QdkEc

open List EchelonForm Nat

namespace AlignedBitMatrix

/-- Overwrite a stored row. -/
def setBlock (m : AlignedBitMatrix) (r : ℕ) (b : Bits) : AlignedBitMatrix where
  blocks := m.blocks.set r b
  rows := m.rows
  columnCount := m.columnCount
  rows_nodup := m.rows_nodup
  rows_lt s hs := by simpa using m.rows_lt s hs

/-- The stored row of a pivot, and the block and the bit of its column. -/
structure ReductionData where
  startBlockOffset : ℕ
  bitIndex : ℕ
  fromBlock : ℕ
  baseBlock : ℕ

def ReductionData.forPivot (pivot : ℕ × ℕ) (within : AlignedBitMatrix) : ReductionData where
  startBlockOffset := pivot.2 / blockBitLen
  bitIndex := pivot.2 % blockBitLen
  fromBlock := within.rows.getD pivot.1 0
  baseBlock := 0

def addIntoBlock (m : AlignedBitMatrix) (toBlock fromBlock startBlockOffset : ℕ) :
    AlignedBitMatrix :=
  let start := startBlockOffset * blockBitLen
  m.setBlock toBlock
    (m.blocks.getD toBlock 0 + (Bits.shiftDown start (m.blocks.getD fromBlock 0)).shiftUp start)

/-- Walk back over a number of stored rows to the one at `untilBlock`, adding the pivot row into
those with a one in its column; also where the walk ends. -/
def reduceBackwardUntil (data : ReductionData) (untilBlock : ℕ) :
    ℕ → AlignedBitMatrix → AlignedBitMatrix × ℕ
  | 0, m => (m, untilBlock)
  | distance + 1, m =>
    let toBlock := untilBlock + distance
    let columnValue := (m.blocks.getD toBlock 0).index
      (data.startBlockOffset * blockBitLen + data.bitIndex)
    reduceBackwardUntil data untilBlock distance
      (if columnValue then m.addIntoBlock toBlock data.fromBlock data.startBlockOffset else m)

/-- Clear the column of a pivot in all other stored rows, first in those before the pivot row and
then in those behind it. -/
def reduceStored (m : AlignedBitMatrix) (source : ℕ × ℕ) : AlignedBitMatrix :=
  let data := ReductionData.forPivot source m
  let (m, toBlock) := reduceBackwardUntil data data.baseBlock (data.fromBlock - data.baseBlock) m
  let toBlock := toBlock + m.rowCount
  let untilBlock := data.fromBlock + 1
  (reduceBackwardUntil data untilBlock (toBlock - untilBlock) m).1

/-- The elimination loop on stored rows. -/
def echelonizeStoredFrom :
    ℕ → ℕ → ℕ × ℕ → AlignedBitMatrix × List ℕ → AlignedBitMatrix × List ℕ
  | 0, _, _, state => state
  | remaining + 1, rowIndex, pivot, (m, rankProfile) =>
    if m.columnCount ≤ pivot.2 then (m, rankProfile)
    else
      let m := (m.swapRows pivot.1 rowIndex).reduceStored (rowIndex, pivot.2)
      echelonizeStoredFrom remaining (rowIndex + 1) (m.pivotOf (rowIndex + 1, pivot.2 + 1))
        (m, rankProfile ++ [pivot.2])

/-- Bring the stored rows into reduced row echelon form, with the pivots. -/
def echelonizeStored (m : AlignedBitMatrix) : AlignedBitMatrix × List ℕ :=
  echelonizeStoredFrom m.rowCount 0 (m.pivotOf (0, 0)) (m, [])

/-- The part of a row that a reduction adds: its blocks from the one of the column on. -/
def addedPart (c : ℕ) (b : Bits) : Bits :=
  (Bits.shiftDown (c / blockBitLen * blockBitLen) b).shiftUp (c / blockBitLen * blockBitLen)

theorem ext_fields {m m' : AlignedBitMatrix} (hblocks : m.blocks = m'.blocks)
    (hrows : m.rows = m'.rows) (hcolumns : m.columnCount = m'.columnCount) : m = m' := by
  cases m
  cases m'
  simp_all

theorem StoresRows.ext_row {m m' : AlignedBitMatrix} (h : m.StoresRows) (h' : m'.StoresRows)
    (hrows : m.rows = m'.rows) (hcolumns : m.columnCount = m'.columnCount)
    (hrow : ∀ i, m.row i = m'.row i) : m = m' := by
  refine ext_fields (ext_getElem ?_ fun r hr hr' => ?_) hrows hcolumns
  · rw [h, h', rowCount, rowCount, hrows]
  · have hmem : r ∈ m.rows := h.rows_perm.mem_iff.mpr (mem_range.mpr hr)
    obtain ⟨i, hi, hpointer⟩ := mem_iff_getElem.mp hmem
    have hi' : i < m'.rows.length := by rwa [← hrows]
    have hpointer' : m'.rows[i] = r := by
      rw [← hpointer]
      simp only [hrows]
    have hread := hrow i
    rw [row, row, getElem?_eq_getElem hi, getElem?_eq_getElem hi'] at hread
    dsimp only at hread
    rwa [hpointer, hpointer', getD_eq_getElem _ _ hr, getD_eq_getElem _ _ hr'] at hread

theorem StoresRows.reduce {m : AlignedBitMatrix} (h : m.StoresRows) (source : ℕ × ℕ) :
    (m.reduce source).StoresRows :=
  List.foldlRecOn _ _ h fun m' hm' i _ => by
    split_ifs
    · exact hm'.setRow _ _
    · exact hm'

section Reduction

variable {m : AlignedBitMatrix}

theorem getD_setBlock {r : ℕ} (hr : r < m.blocks.length) (b : Bits) (s : ℕ) :
    (m.setBlock r b).blocks.getD s 0 = if s = r then b else m.blocks.getD s 0 := by
  rw [setBlock, getD_eq_getElem?_getD, getElem?_set, getD_eq_getElem?_getD]
  rcases eq_or_ne s r with rfl | hs
  · simp [hr]
  · simp [hs, Ne.symm hs]

theorem getD_reduceBackwardUntil (data : ReductionData) (untilBlock distance : ℕ)
    (hlength : untilBlock + distance ≤ m.blocks.length)
    (hfrom : data.fromBlock < untilBlock ∨ untilBlock + distance ≤ data.fromBlock) :
    let start := data.startBlockOffset * blockBitLen
    let walked := (reduceBackwardUntil data untilBlock distance m).1
    (walked.rows = m.rows ∧ walked.columnCount = m.columnCount ∧
      walked.blocks.length = m.blocks.length) ∧
      ∀ r, walked.blocks.getD r 0 =
        if (untilBlock ≤ r ∧ r < untilBlock + distance) ∧
            (m.blocks.getD r 0).index (start + data.bitIndex) = true then
          m.blocks.getD r 0 + (Bits.shiftDown start (m.blocks.getD data.fromBlock 0)).shiftUp start
        else m.blocks.getD r 0 := by
  induction distance generalizing m with
  | zero =>
    refine ⟨⟨rfl, rfl, rfl⟩, fun r => ?_⟩
    rw [if_neg fun h => by omega]
    rfl
  | succ distance ih =>
    rw [reduceBackwardUntil]
    set stepped := if (m.blocks.getD (untilBlock + distance) 0).index
        (data.startBlockOffset * blockBitLen + data.bitIndex) = true then
      m.addIntoBlock (untilBlock + distance) data.fromBlock data.startBlockOffset else m
      with hstepped
    have hlt : untilBlock + distance < m.blocks.length := by omega
    have hshape : stepped.rows = m.rows ∧ stepped.columnCount = m.columnCount ∧
        stepped.blocks.length = m.blocks.length := by
      rw [hstepped]
      split_ifs
      · exact ⟨rfl, rfl, length_set⟩
      · exact ⟨rfl, rfl, rfl⟩
    have hget : ∀ r, stepped.blocks.getD r 0 = if r = untilBlock + distance ∧
        (m.blocks.getD r 0).index (data.startBlockOffset * blockBitLen + data.bitIndex) = true
        then
          m.blocks.getD r 0 + (Bits.shiftDown (data.startBlockOffset * blockBitLen)
            (m.blocks.getD data.fromBlock 0)).shiftUp (data.startBlockOffset * blockBitLen)
        else m.blocks.getD r 0 := by
      intro r
      rw [hstepped]
      split_ifs with hbit hr hr
      · rw [addIntoBlock, getD_setBlock hlt, if_pos hr.1, hr.1]
      · rw [addIntoBlock, getD_setBlock hlt, if_neg]
        rintro rfl
        exact hr ⟨rfl, hbit⟩
      · exact absurd (hr.1 ▸ hr.2) hbit
      · rfl
    obtain ⟨hshape', hget'⟩ := ih (m := stepped) (by omega) (by omega)
    refine ⟨⟨hshape'.1.trans hshape.1, hshape'.2.1.trans hshape.2.1,
      hshape'.2.2.trans hshape.2.2⟩, fun r => ?_⟩
    have hsource : stepped.blocks.getD data.fromBlock 0 = m.blocks.getD data.fromBlock 0 := by
      rw [hget, if_neg fun h => by omega]
    rw [hget', hsource]
    rcases eq_or_ne r (untilBlock + distance) with rfl | hr
    · rw [if_neg fun h => by omega, hget]
      exact if_congr ⟨fun h => ⟨by omega, h.2⟩, fun h => ⟨rfl, h.2⟩⟩ rfl rfl
    · have hself : stepped.blocks.getD r 0 = m.blocks.getD r 0 := by
        rw [hget, if_neg fun h => hr h.1]
      rw [hself]
      exact if_congr ⟨fun h => ⟨by omega, h.2⟩, fun h => ⟨by omega, h.2⟩⟩ rfl rfl

theorem snd_reduceBackwardUntil (data : ReductionData) (untilBlock distance : ℕ)
    (m : AlignedBitMatrix) : (reduceBackwardUntil data untilBlock distance m).2 = untilBlock := by
  induction distance generalizing m with
  | zero => rfl
  | succ distance ih => exact ih _

theorem getD_reduceStored (h : m.StoresRows) {p : ℕ} (hp : p < m.rowCount) (c : ℕ) :
    ((m.reduceStored (p, c)).rows = m.rows ∧ (m.reduceStored (p, c)).columnCount = m.columnCount ∧
      (m.reduceStored (p, c)).blocks.length = m.blocks.length) ∧
      ∀ r, r < m.rowCount → (m.reduceStored (p, c)).blocks.getD r 0 =
        if r ≠ m.rows.getD p 0 ∧ (m.blocks.getD r 0).index c = true then
          m.blocks.getD r 0 + addedPart c (m.blocks.getD (m.rows.getD p 0) 0)
        else m.blocks.getD r 0 := by
  have hlength : m.blocks.length = m.rowCount := h
  have hpointer : m.rows.getD p 0 < m.blocks.length := by
    rw [getD_eq_getElem _ _ hp]
    exact m.rows_lt _ (getElem_mem hp)
  have hcolumn : c / blockBitLen * blockBitLen + c % blockBitLen = c := by
    rw [mul_comm]
    exact div_add_mod c blockBitLen
  set data := ReductionData.forPivot (p, c) m with hdata
  have hfrom : data.fromBlock = m.rows.getD p 0 := rfl
  obtain ⟨⟨hrows, hcolumns, hblocks⟩, hget⟩ := getD_reduceBackwardUntil (m := m) data 0
    data.fromBlock (by omega) (by omega)
  generalize hbefore : (reduceBackwardUntil data 0 data.fromBlock m).1 = before at *
  obtain ⟨⟨hrows', hcolumns', hblocks'⟩, hget'⟩ := getD_reduceBackwardUntil (m := before) data
    (data.fromBlock + 1) (m.rowCount - (data.fromBlock + 1)) (by omega) (by omega)
  have hcount : before.rowCount = m.rowCount := by rw [rowCount, rowCount, hrows]
  have hreduced : m.reduceStored (p, c) = (reduceBackwardUntil data (data.fromBlock + 1)
      (m.rowCount - (data.fromBlock + 1)) before).1 := by
    have hend := snd_reduceBackwardUntil data 0 data.fromBlock m
    change (reduceBackwardUntil data (data.fromBlock + 1)
      ((reduceBackwardUntil data 0 data.fromBlock m).2 +
        (reduceBackwardUntil data 0 data.fromBlock m).1.rowCount - (data.fromBlock + 1))
          (reduceBackwardUntil data 0 data.fromBlock m).1).1 = _
    rw [hend, hbefore, hcount, zero_add]
  rw [hreduced]
  refine ⟨⟨hrows'.trans hrows, hcolumns'.trans hcolumns, hblocks'.trans hblocks⟩, fun r hr => ?_⟩
  have hcolumn' : data.startBlockOffset * blockBitLen + data.bitIndex = c := hcolumn
  have hpart : ∀ b, (Bits.shiftDown (data.startBlockOffset * blockBitLen) b).shiftUp
      (data.startBlockOffset * blockBitLen) = addedPart c b := fun _ => rfl
  simp only [hcolumn', hpart, zero_le, zero_add, true_and] at hget hget'
  have hsource : before.blocks.getD data.fromBlock 0 = m.blocks.getD data.fromBlock 0 := by
    rw [hget, if_neg fun h => by omega]
  rw [hget', hsource, ← hfrom]
  -- A row before the pivot row is visited by the first walk, one behind it by the second.
  rcases lt_trichotomy r data.fromBlock with hlt | heq | hgt
  · rw [if_neg fun h => by omega, hget]
    exact if_congr ⟨fun h => ⟨by omega, h.2⟩, fun h => ⟨hlt, h.2⟩⟩ rfl rfl
  · rw [heq, if_neg fun h => by omega, if_neg fun h => h.1 rfl, hsource]
  · have hself : before.blocks.getD r 0 = m.blocks.getD r 0 := by
      rw [hget, if_neg fun h => by omega]
    rw [hself]
    exact if_congr ⟨fun h => ⟨by omega, h.2⟩, fun h => ⟨by omega, h.2⟩⟩ rfl rfl

theorem row_reduce {p : ℕ} (hp : p < m.rowCount) (c : ℕ) :
    ((m.reduce (p, c)).rows = m.rows ∧ (m.reduce (p, c)).columnCount = m.columnCount) ∧
      ∀ i, i < m.rowCount → (m.reduce (p, c)).row i =
        if i ≠ p ∧ m.get i c = true then m.row i + addedPart c (m.row p) else m.row i := by
  have hfold : ∀ (l : List ℕ), l.Nodup → (∀ i ∈ l, i < m.rowCount ∧ i ≠ p) →
      ∀ m' : AlignedBitMatrix, m'.rows = m.rows → m'.columnCount = m.columnCount →
        m'.row p = m.row p →
          let reduced := l.foldl (fun m rowIndex => if m.get rowIndex c then
            m.setRow rowIndex (m.row rowIndex + addedPart c (m.row p)) else m) m'
          (reduced.rows = m.rows ∧ reduced.columnCount = m.columnCount) ∧
            ∀ i, reduced.row i = if i ∈ l ∧ m'.get i c = true then
              m'.row i + addedPart c (m.row p) else m'.row i := by
    intro l
    induction l with
    | nil =>
      intro _ _ m' hrows hcolumns _
      exact ⟨⟨hrows, hcolumns⟩, fun i => by simp⟩
    | cons k l ih =>
      intro hnodup hl m' hrows hcolumns hsource
      obtain ⟨hkl, hnodup⟩ := nodup_cons.mp hnodup
      obtain ⟨hk, hkp⟩ := hl k (by simp)
      have hk' : k < m'.rowCount := by rwa [rowCount, hrows]
      set stepped := if m'.get k c = true then
        m'.setRow k (m'.row k + addedPart c (m'.row p)) else m' with hstepped
      have hrow : ∀ i, stepped.row i = if i = k ∧ m'.get i c = true then
          m'.row i + addedPart c (m.row p) else m'.row i := by
        intro i
        rw [hstepped]
        split_ifs with hbit hi hi
        · rw [row_setRow hk', if_pos hi.1, hi.1, hsource]
        · rw [row_setRow hk', if_neg]
          rintro rfl
          exact hi ⟨rfl, hbit⟩
        · exact absurd (hi.1 ▸ hi.2) hbit
        · rfl
      have hshape : stepped.rows = m.rows ∧ stepped.columnCount = m.columnCount := by
        rw [hstepped]
        split_ifs
        · exact ⟨hrows, hcolumns⟩
        · exact ⟨hrows, hcolumns⟩
      obtain ⟨hshape', hrow'⟩ := ih hnodup (fun i hi => hl i (by simp [hi])) stepped hshape.1
        hshape.2 (by rw [hrow, if_neg fun h => hkp h.1.symm, hsource])
      refine ⟨hshape', fun i => ?_⟩
      rw [foldl_cons, hrow', get]
      rcases eq_or_ne i k with rfl | hik
      · rw [if_neg fun h => hkl h.1, hrow]
        simp
      · have hself : stepped.row i = m'.row i := by rw [hrow, if_neg fun h => hik h.1]
        rw [hself]
        simp [hik, get]
  obtain ⟨hshape, hrow⟩ := hfold (EchelonForm.otherRows p m.rowCount)
    (nodup_otherRows p m.rowCount)
    (fun i hi => (mem_otherRows hp).mp hi) m rfl rfl rfl
  refine ⟨hshape, fun i hi => (hrow i).trans (if_congr ?_ rfl rfl)⟩
  rw [mem_otherRows hp]
  tauto

theorem reduceStored_eq_reduce (h : m.StoresRows) {p : ℕ} (hp : p < m.rowCount) (c : ℕ) :
    m.reduceStored (p, c) = m.reduce (p, c) := by
  obtain ⟨⟨hrows, hcolumns, hblocks⟩, hget⟩ := getD_reduceStored h hp c
  obtain ⟨⟨hrows', hcolumns'⟩, hrow'⟩ := row_reduce (m := m) hp c
  have hstored : (m.reduceStored (p, c)).StoresRows := by
    rw [StoresRows, hblocks, rowCount, hrows]
    exact h
  refine hstored.ext_row (h.reduce _) (hrows.trans hrows'.symm) (hcolumns.trans hcolumns'.symm)
    fun i => ?_
  have hread : ∀ {m' : AlignedBitMatrix}, m'.rows = m.rows → ∀ j, j < m.rowCount →
      m'.row j = m'.blocks.getD (m.rows.getD j 0) 0 := by
    intro m' hm' j hj
    rw [row, hm', getElem?_eq_getElem hj, getD_eq_getElem _ _ hj]
  rcases lt_or_ge i m.rowCount with hi | hi
  · have hpointer : m.rows.getD i 0 < m.rowCount := by
      rw [getD_eq_getElem _ _ hi]
      exact (m.rows_lt _ (getElem_mem hi)).trans_le (le_of_eq h)
    have hne : m.rows.getD i 0 ≠ m.rows.getD p 0 ↔ i ≠ p := by
      rw [getD_eq_getElem _ _ hi, getD_eq_getElem _ _ hp]
      exact not_congr (List.Nodup.getElem_inj_iff m.rows_nodup)
    rw [hread hrows i hi, hget _ hpointer, hrow' i hi, get, hread rfl i hi, hread rfl p hp]
    exact if_congr (and_congr hne Iff.rfl) rfl rfl
  · rw [row_of_le (by rw [rowCount, hrows]; exact hi),
      row_of_le (by rw [rowCount, hrows']; exact hi)]

end Reduction

theorem echelonizeStored_eq {m : AlignedBitMatrix} (h : m.StoresRows) :
    m.echelonizeStored = m.echelonize := by
  have hloop : ∀ (remaining rowIndex : ℕ) (pivot : ℕ × ℕ) (m' : AlignedBitMatrix) (l : List ℕ),
      m'.StoresRows → rowIndex + remaining = m'.rowCount →
        echelonizeStoredFrom remaining rowIndex pivot (m', l) =
          echelonizeFrom remaining rowIndex pivot (m', l) := by
    intro remaining
    induction remaining with
    | zero =>
      intro _ _ _ _ _ _
      rfl
    | succ remaining ih =>
      intro rowIndex pivot m' l hm' hcount
      rw [echelonizeStoredFrom, echelonizeFrom]
      split_ifs with hend
      · rfl
      · have hswap := hm'.swapRows pivot.1 rowIndex
        have hlt : rowIndex < (m'.swapRows pivot.1 rowIndex).rowCount := by
          rw [rowCount_swapRows]
          omega
        rw [reduceStored_eq_reduce hswap hlt]
        refine ih _ _ _ _ (hswap.reduce _) ?_
        have hrows := (row_reduce hlt pivot.2).1.1
        rw [rowCount, hrows, ← rowCount, rowCount_swapRows]
        omega
  exact hloop m.rowCount 0 _ m [] h (zero_add _)

section Reduced

variable {A : AlignedBitMatrix} {form : EchelonForm}
  (h : EchelonForm.Eliminated A form A.columnCount)

include h

theorem pivotOf_of_eliminated {k c : ℕ} {pivot : ℕ × ℕ} (hpivot : form.matrix.IsPivot (k, c) pivot)
    (hk : k < form.pivots.length) (hc : c ≤ form.pivots[k]) : pivot = (k, form.pivots[k]) := by
  have hlength := h.length_le
  have hcolumn : form.pivots[k] < A.columnCount := h.lt _ (getElem_mem hk)
  have hself : form.matrix.get k form.pivots[k] = true := by rw [h.pivot k k hk, decide_eq_true rfl]
  have hle : pivot.2 ≤ form.pivots[k] := by
    by_contra hlt
    rw [hpivot.before k _ (le_refl k) hc (by omega)] at hself
    cases hself
  obtain ⟨hrow, hrow', hbit⟩ := hpivot.found (by rw [h.transforms.columnCount]; omega)
    (by rw [h.transforms.rowCount]; dsimp only; omega)
  have hcolumn' : pivot.2 = form.pivots[k] := by
    by_contra hne
    have hlt : pivot.2 < form.pivots[k] := by omega
    have hzero : form.matrix.get pivot.1 pivot.2 = false := by
      rcases lt_or_ge pivot.1 form.pivots.length with hi | hi
      · refine h.leading pivot.1 hi _ (hlt.trans_le ?_)
        rcases eq_or_lt_of_le hrow with heq | hlt'
        · simp only [← heq, le_refl]
        · exact (pairwise_iff_getElem.mp h.sorted k pivot.1 hk hi hlt').le
      · exact h.cleared _ _ hi (by omega)
    rw [hzero] at hbit
    cases hbit
  have hrow'' : pivot.1 = k := by
    rw [hcolumn', h.pivot _ k hk] at hbit
    exact of_decide_eq_true hbit
  exact Prod.ext hrow'' hcolumn'

theorem le_pivotOf_of_eliminated {k c : ℕ} {pivot : ℕ × ℕ}
    (hpivot : form.matrix.IsPivot (k, c) pivot) (hk : form.pivots.length ≤ k)
    (hrows : k < A.rowCount) : A.columnCount ≤ pivot.2 := by
  by_contra hlt
  obtain ⟨hrow, _, hbit⟩ := hpivot.found (by rw [h.transforms.columnCount]; omega)
    (by rw [h.transforms.rowCount]; exact hrows)
  rw [h.cleared _ _ (hk.trans hrow) (by omega)] at hbit
  cases hbit

theorem reduce_of_eliminated {k : ℕ} (hk : k < form.pivots.length) :
    (form.matrix.swapRows k k).reduce (k, form.pivots[k]) = form.matrix := by
  have hswap : form.matrix.swapRows k k = form.matrix :=
    ext_fields rfl (swapRows_self _ _) rfl
  have hlt : k < form.matrix.rowCount := by
    rw [h.transforms.rowCount]
    exact hk.trans_le h.length_le
  rw [hswap, reduce]
  refine List.foldlRecOn (motive := fun m => m = form.matrix) _ _ rfl fun m hm i hi => ?_
  obtain ⟨_, hne⟩ := (mem_otherRows hlt).mp hi
  rw [hm, h.pivot i k hk, decide_eq_false hne]
  rfl

theorem echelonize_of_eliminated : form.matrix.echelonize = (form.matrix, form.pivots) := by
  have hlength := h.length_le
  have hloop : ∀ (remaining k c : ℕ) (pivot : ℕ × ℕ), k + remaining = A.rowCount →
      k ≤ form.pivots.length → (∀ hk : k < form.pivots.length, c ≤ form.pivots[k]) →
        form.matrix.IsPivot (k, c) pivot →
          echelonizeFrom remaining k pivot (form.matrix, form.pivots.take k) =
            (form.matrix, form.pivots) := by
    intro remaining
    induction remaining with
    | zero =>
      intro k c pivot hcount _ _ _
      rw [echelonizeFrom, take_of_length_le (by omega)]
    | succ remaining ih =>
      intro k c pivot hcount hk hc hpivot
      rw [echelonizeFrom]
      rcases lt_or_ge k form.pivots.length with hlt | hge
      · obtain rfl := pivotOf_of_eliminated h hpivot hlt (hc hlt)
        have hcolumn : form.pivots[k] < A.columnCount := h.lt _ (getElem_mem hlt)
        rw [if_neg (by rw [h.transforms.columnCount]; dsimp only; omega)]
        rw [reduce_of_eliminated h hlt, take_append_getElem hlt]
        refine ih (k + 1) (form.pivots[k] + 1) _ (by omega) hlt (fun hk' => ?_)
          (isPivot_pivotOf _ _)
        exact pairwise_iff_getElem.mp h.sorted k (k + 1) hlt hk' (lt_succ_self k)
      · rw [if_pos (by rw [h.transforms.columnCount]; exact
          le_pivotOf_of_eliminated h hpivot hge (by omega)), take_of_length_le hge]
  have hrun := hloop A.rowCount 0 0 (form.matrix.pivotOf (0, 0)) (zero_add _)
    (zero_le _) (fun _ => zero_le _) (isPivot_pivotOf _ _)
  rw [take_zero] at hrun
  rwa [echelonize, h.transforms.rowCount]

end Reduced

/-- A public operation that reorders row pointers. -/
inductive RowReordering where
  | swapRows (left right : ℕ)
  | permuteRows (permutation : List ℕ)

/-- Reorder row pointers; `none` is an index out of range or no permutation. -/
def reorder (m : AlignedBitMatrix) :
    RowReordering → Option AlignedBitMatrix
  | .swapRows left right =>
    if left < m.rowCount ∧ right < m.rowCount then some (m.swapRows left right) else none
  | .permuteRows permutation => m.permuteRows permutation

/-- The same stored rows under a permutation of the pointers. -/
structure Reordered (m m' : AlignedBitMatrix) : Prop where
  blocks_eq : m'.blocks = m.blocks
  columnCount_eq : m'.columnCount = m.columnCount
  rows_perm : m'.rows.Perm m.rows

section Reordered

variable {m m' : AlignedBitMatrix}

theorem rows_perm_of_subset (hcount : m'.rowCount = m.rowCount)
    (hsubset : ∀ r ∈ m'.rows, r ∈ m.rows) : m'.rows.Perm m.rows :=
  (subperm_of_subset m'.rows_nodup hsubset).perm_of_length_le (le_of_eq hcount.symm)

theorem reordered_of_reorder {operation : RowReordering} (h : m.reorder operation = some m') :
    Reordered m m' := by
  cases operation with
  | swapRows left right =>
    rw [reorder] at h
    split_ifs at h
    obtain rfl := Option.some_inj.mp h
    exact ⟨rfl, rfl, rows_perm_of_subset (rowCount_swapRows _ _ _) fun r hr =>
      mem_of_mem_swapEntries hr⟩
  | permuteRows permutation =>
    have h : m.permuteRows permutation = some m' := h
    obtain ⟨hblocks, hcolumns, hcount⟩ := permuteRows_spec h
    refine ⟨hblocks, hcolumns, rows_perm_of_subset hcount fun r hr => ?_⟩
    unfold permuteRows at h
    split_ifs at h with hperm
    obtain rfl := Option.some_inj.mp h
    rcases mem_append.mp hr with hr | hr
    · obtain ⟨k, hk, rfl⟩ := mem_map.mp hr
      have hlt : k < m.rows.length := (mem_range.mp (hperm.1.mem_iff.mp hk)).trans_le hperm.2
      rw [getD_eq_getElem _ _ hlt]
      exact getElem_mem hlt
    · exact mem_of_mem_drop hr

theorem reordered_of_run {operations : List RowReordering}
    (h : operations.foldlM reorder m = some m') : Reordered m m' := by
  induction operations generalizing m with
  | nil =>
    obtain rfl := Option.some_inj.mp h
    exact ⟨rfl, rfl, List.Perm.refl _⟩
  | cons operation operations ih =>
    obtain ⟨mid, hmid, h⟩ := Option.bind_eq_some_iff.mp h
    have hstep := reordered_of_reorder hmid
    have hrest := ih h
    exact ⟨hrest.blocks_eq.trans hstep.blocks_eq, hrest.columnCount_eq.trans hstep.columnCount_eq,
      hrest.rows_perm.trans hstep.rows_perm⟩

theorem Reordered.symm (h : Reordered m m') : Reordered m' m :=
  ⟨h.blocks_eq.symm, h.columnCount_eq.symm, h.rows_perm.symm⟩

theorem Reordered.storesRows (h : Reordered m m') (hm : m.StoresRows) : m'.StoresRows := by
  rw [StoresRows, h.blocks_eq, rowCount, h.rows_perm.length_eq]
  exact hm

theorem Reordered.rowSpace_eq (h : Reordered m m') :
    Bits.rowSpace m'.rowCount m'.entries = Bits.rowSpace m.rowCount m.entries := by
  have hle : ∀ {m m' : AlignedBitMatrix}, Reordered m m' →
      Bits.rowSpace m'.rowCount m'.entries ≤ Bits.rowSpace m.rowCount m.entries := by
    intro m m' h
    refine Bits.rowSpace_le.mpr fun i hi => ?_
    obtain ⟨j, hj, hpointer⟩ := mem_iff_getElem.mp
      (h.rows_perm.mem_iff.mp (getElem_mem (l := m'.rows) hi))
    have hrow : m'.entries i = m.entries j := by
      rw [entries, entries, h.columnCount_eq, row, row, getElem?_eq_getElem hj,
        getElem?_eq_getElem hi, hpointer, h.blocks_eq]
    rw [hrow]
    exact Bits.row_mem_rowSpace _ hj
  exact le_antisymm (hle h) (hle h.symm)

end Reordered

/-- After any reordering of the rows, elimination in place gives the matrix and the pivots of the
echelon form, those of the matrix before the reordering; it keeps the row space, and on its own
result it changes nothing. -/
theorem echelonizeStored_spec {A A' : AlignedBitMatrix} (hstores : A.StoresRows)
    {operations : List RowReordering} (hrun : operations.foldlM reorder A = some A') :
    (A'.echelonizeStored.1 = (EchelonForm.new A').matrix ∧
      A'.echelonizeStored.2 = (EchelonForm.new A').pivots) ∧
      (A'.echelonizeStored.1.eq (EchelonForm.new A).matrix = true ∧
        A'.echelonizeStored.2 = (EchelonForm.new A).pivots) ∧
        Bits.rowSpace A'.echelonizeStored.1.rowCount A'.echelonizeStored.1.entries =
          Bits.rowSpace A.rowCount A.entries ∧
          A'.echelonizeStored.1.echelonizeStored = A'.echelonizeStored := by
  have hreordered := reordered_of_run hrun
  have hstores' := hreordered.storesRows hstores
  have h := eliminated_new A
  have h' := eliminated_new A'
  have hstored : A'.echelonizeStored =
      ((EchelonForm.new A').matrix, (EchelonForm.new A').pivots) := by
    rw [echelonizeStored_eq hstores', echelonize_eq]
  have hform : (EchelonForm.new A').matrix.StoresRows := by
    have hkeep := echelonize_induction (P := StoresRows) (fun m i source start hm => hm.setRow i _)
      (fun m a b hm => hm.swapRows a b) hstores'
    rwa [echelonize_eq] at hkeep
  have hspace : Bits.rowSpace (EchelonForm.new A').matrix.rowCount
      (EchelonForm.new A').matrix.entries = Bits.rowSpace A.rowCount A.entries := by
    rw [← hreordered.rowSpace_eq, h'.transforms.rowCount]
    unfold entries
    rw [h'.transforms.columnCount]
    exact h'.rowSpace_eq
  rw [hstored]
  refine ⟨⟨rfl, rfl⟩, ?_, hspace, ?_⟩
  · obtain ⟨hpivots, hrows⟩ := h'.reduced.unique h.reduced h'.length_le h.length_le
      (h'.rowSpace_eq.trans (hreordered.rowSpace_eq.trans h.rowSpace_eq.symm))
    refine ⟨eq_eq_true_iff.mpr ⟨?_, ?_, fun i _ j hj => ?_⟩, hpivots⟩
    · rw [h'.transforms.rowCount, h.transforms.rowCount]
      exact hreordered.rows_perm.length_eq
    · rw [h'.transforms.columnCount, h.transforms.columnCount, hreordered.columnCount_eq]
    · rw [h'.transforms.columnCount] at hj
      have hbit := congrArg (fun g : ℕ → Bits => (g i).index j) hrows
      simp only [Bits.index_low, ← hreordered.columnCount_eq, decide_eq_true hj,
        Bool.true_and] at hbit
      exact hbit
  · rw [echelonizeStored_eq hform, echelonize_of_eliminated h']

theorem echelonizeStored_spec_identity : (((identity 2).swapRows 0 1).echelonizeStored.1 =
        (EchelonForm.new ((identity 2).swapRows 0 1)).matrix ∧
      ((identity 2).swapRows 0 1).echelonizeStored.2 =
        (EchelonForm.new ((identity 2).swapRows 0 1)).pivots) ∧
      (((identity 2).swapRows 0 1).echelonizeStored.1.eq (EchelonForm.new (identity 2)).matrix =
          true ∧
        ((identity 2).swapRows 0 1).echelonizeStored.2 = (EchelonForm.new (identity 2)).pivots) ∧
        Bits.rowSpace ((identity 2).swapRows 0 1).echelonizeStored.1.rowCount
            ((identity 2).swapRows 0 1).echelonizeStored.1.entries =
          Bits.rowSpace (identity 2).rowCount (identity 2).entries ∧
          ((identity 2).swapRows 0 1).echelonizeStored.1.echelonizeStored =
            ((identity 2).swapRows 0 1).echelonizeStored := by
  have hrun : [RowReordering.swapRows 0 1].foldlM reorder (identity 2) =
      some ((identity 2).swapRows 0 1) := rfl
  exact echelonizeStored_spec rfl hrun

end AlignedBitMatrix

end QdkEc
