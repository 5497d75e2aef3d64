import QdkEc.Binar.MatrixPadding
import QdkEc.Binar.RowBasisCompletion
import QdkEc.Paulimer.CliffordFixedSpace

/-!
# Bases and groups of Paulis up to phases

This module models the completion of independent Paulis to a basis and the
comparison of the groups of two lists up to phases.  Both write the Paulis as
rows of one matrix and read its reduced echelon form.
-/

namespace QdkEc

open PhasedPauli PauliVector List CliffordUnitary Bits AlignedBitMatrix EchelonForm PauliGroup
open CliffordUnitary (rowOfVector vectorOfRow)

namespace PauliUnitary

/-- Set the entries of a row at some columns; `none` is a failed assertion on an index. -/
def setEntries (rowIndex : ℕ) (columns : List ℕ) (m : AlignedBitMatrix) : Option AlignedBitMatrix :=
  columns.foldlM (fun m column =>
    if rowIndex < m.rowCount ∧ column < m.columnCount then some (m.set rowIndex column true)
    else none) m

/-- The matrix whose rows hold the `X` bits and then the `Z` bits of the Paulis. -/
def bitmatrixFromPaulis (paulis : List PauliUnitary) (qubitCount : ℕ) : Option AlignedBitMatrix :=
  paulis.zipIdx.foldlM (fun result (pauli, rowIndex) => do
    let result ← setEntries rowIndex pauli.xBits.support result
    setEntries rowIndex (pauli.zBits.support.map (qubitCount + ·)) result)
    (.zeros paulis.length (2 * qubitCount))

/-- Complete independent Paulis by `X` and `Z` on qubits; `none` is a failed assertion. -/
def completeToFullPauliBasis (paulis : List PauliUnitary) (qubitCount : ℕ) :
    Option (List PauliUnitary) := do
  let paulisAsBitmatrix ← bitmatrixFromPaulis paulis qubitCount
  let (_, rankProfile) := paulisAsBitmatrix.echelonize
  if rankProfile.length ≠ paulis.length then none
  else
    let rankProfileComplement := AlignedBitMatrix.complement rankProfile (2 * qubitCount)
    some (paulis.map assigned ++ rankProfileComplement.map fun columnIndex =>
      if columnIndex < qubitCount then x columnIndex else z (columnIndex - qubitCount))

/-- The number of qubits up to the highest one of a Pauli. -/
def qubitCount (p : PauliUnitary) : ℕ :=
  p.maxSupport.elim 0 (· + 1)

/-- The number of qubits up to the highest one of some Paulis. -/
def paulisQubitCount (paulis : List PauliUnitary) : ℕ :=
  (paulis.map qubitCount).max?.getD 0

/-- Two lists generate the same group up to phases. -/
def areTheSameGroupUpToPhases (paulisLeft paulisRight : List PauliUnitary) : Option Bool := do
  let qubitCount := paulisQubitCount paulisLeft
  if paulisQubitCount paulisRight ≠ qubitCount then return false
  let matrixLeft ← bitmatrixFromPaulis paulisLeft qubitCount
  let matrixRight ← bitmatrixFromPaulis paulisRight qubitCount
  let (matrixLeft, leftRankProfile) := matrixLeft.echelonize
  let (matrixRight, rightRankProfile) := matrixRight.echelonize
  let rank := leftRankProfile.length
  if rank = rightRankProfile.length then
    return matrixLeft.columnCount == matrixRight.columnCount &&
      (((List.range matrixLeft.rowCount).take rank).zip
        ((List.range matrixRight.rowCount).take rank)).all fun (rowLeft, rowRight) =>
          matrixLeft.row rowLeft == matrixRight.row rowRight
  else return false

theorem setEntries_eq {rowIndex : ℕ} {columns : List ℕ} {m : AlignedBitMatrix}
    (hrow : rowIndex < m.rowCount) (hcolumns : ∀ column ∈ columns, column < m.columnCount) :
    setEntries rowIndex columns m =
      some (columns.foldl (fun m column => m.set rowIndex column true) m) := by
  induction columns generalizing m with
  | nil => rfl
  | cons column columns ih =>
    rw [setEntries, foldlM_cons, if_pos ⟨hrow, hcolumns column mem_cons_self⟩]
    exact ih (by simpa using hrow) fun c hc => hcolumns c (mem_cons_of_mem column hc)

variable {n : ℕ} {paulis : List PauliUnitary}

theorem idxOf_range {q : ℕ} (hq : q < n) : (List.range n).idxOf q = q := by
  have hget := (nodup_range (n := n)).idxOf_getElem q (by simpa using hq)
  rwa [getElem_range] at hget

theorem setQubits_range (rowIndex offset : ℕ) {bits : Bits} (h : bits.Below n)
    (m : AlignedBitMatrix) : setQubits (List.range n) rowIndex offset bits.support m =
      (bits.support.map (offset + ·)).foldl (fun m column => m.set rowIndex column true) m := by
  rw [setQubits, foldl_map]
  refine foldl_ext _ _ _ fun m q hq => ?_
  rw [idxOf_range (h.lt_of_index (Bits.mem_support.mp hq))]

theorem bitmatrixFromPaulis_eq (h : ∀ p ∈ paulis, p.Below n) :
    bitmatrixFromPaulis paulis n = some (asBitmatrix paulis (List.range n)) := by
  have hloop : ∀ (l : List PauliUnitary) (start : ℕ) (m : AlignedBitMatrix),
      (∀ p ∈ l, p.Below n) → start + l.length ≤ m.rowCount → m.columnCount = 2 * n →
        (l.zipIdx start).foldlM (fun result (entry : PauliUnitary × ℕ) => do
          let result ← setEntries entry.2 entry.1.xBits.support result
          setEntries entry.2 (entry.1.zBits.support.map (n + ·)) result) m =
          some ((l.zipIdx start).foldl (fun m entry =>
            setQubits (List.range n) entry.2 n entry.1.zBits.support
              (setQubits (List.range n) entry.2 0 entry.1.xBits.support m)) m) := by
    intro l
    induction l with
    | nil =>
      intro start m _ _ _
      rfl
    | cons p l ih =>
      intro start m hl hrows hcolumns
      rw [length_cons] at hrows
      have hx : p.xBits.Below n := (hl p mem_cons_self).1
      have hz : p.zBits.Below n := (hl p mem_cons_self).2
      have hrow : start < m.rowCount := by omega
      obtain ⟨⟨hrowsX, hcolumnsX⟩, -⟩ := get_setQubits (List.range n) start 0
        p.xBits.support hrow
      obtain ⟨⟨hrowsZ, hcolumnsZ⟩, -⟩ := get_setQubits (List.range n) start n
        p.zBits.support (hrowsX.symm ▸ hrow :
          start < (setQubits (List.range n) start 0 p.xBits.support m).rowCount)
      have hfirst : setEntries start p.xBits.support m =
          some (setQubits (List.range n) start 0 p.xBits.support m) := by
        rw [setQubits_range start 0 hx, setEntries_eq hrow]
        · simp
        · intro q hq
          have := hx.lt_of_index (Bits.mem_support.mp hq)
          omega
      have hsecond : setEntries start (p.zBits.support.map (n + ·))
          (setQubits (List.range n) start 0 p.xBits.support m) =
            some (setQubits (List.range n) start n p.zBits.support
              (setQubits (List.range n) start 0 p.xBits.support m)) := by
        rw [setQubits_range start n hz, setEntries_eq (by omega)]
        intro column hcolumn
        obtain ⟨q, hq, rfl⟩ := mem_map.mp hcolumn
        have := hz.lt_of_index (Bits.mem_support.mp hq)
        omega
      rw [zipIdx_cons, foldlM_cons, foldl_cons]
      simp only [hfirst, hsecond, Option.bind_eq_bind, Option.bind_some]
      exact ih (start + 1) _ (fun q hq => hl q (mem_cons_of_mem p hq)) (by omega)
        (by omega)
  have hloop' := hloop paulis 0 (.zeros paulis.length (2 * n)) h (by simp) rfl
  rw [asBitmatrix, length_range]
  exact hloop'

theorem encode_range {p : PauliUnitary} (hp : p.Below n) :
    encode (List.range n) p.xBits p.zBits = rowOfVector n p.toPhased.vector := by
  have hx : p.xBits.Below n := hp.1
  have hz : p.zBits.Below n := hp.2
  have hpositions : p.xBits.support.map (List.range n).idxOf = p.xBits.support :=
    (map_congr_left fun q hq =>
      idxOf_range (hx.lt_of_index (Bits.mem_support.mp hq))).trans (map_id _)
  have hshifted : (p.zBits.support.map fun q =>
      (List.range n).length + (List.range n).idxOf q) = p.zBits.support.map (n + ·) :=
    map_congr_left fun q hq => by
      rw [length_range, idxOf_range (hz.lt_of_index (Bits.mem_support.mp hq))]
  refine ext_index fun j => ?_
  rw [encode, hpositions, hshifted, index_fromIndices, rowOfVector_apply, index_add, index_shiftUp]
  change _ = (p.xBits.index j ^^ (decide (n ≤ j) && p.zBits.index (j - n)))
  rcases Nat.lt_or_ge j n with hj | hj
  · rw [decide_eq_false (by omega : ¬ n ≤ j), Bool.false_and, Bool.xor_false, Bool.eq_iff_iff,
      decide_eq_true_iff, mem_append, Bits.mem_support]
    refine or_iff_left fun hmem => ?_
    obtain ⟨q, -, rfl⟩ := mem_map.mp hmem
    omega
  · rw [hx.index_eq_false hj, decide_eq_true hj, Bool.true_and, Bool.false_xor, Bool.eq_iff_iff,
      decide_eq_true_iff, mem_append, Bits.mem_support, hx.index_eq_false hj]
    simp only [Bool.false_eq_true, false_or, mem_map, Bits.mem_support]
    constructor
    · rintro ⟨q, hq, rfl⟩
      rwa [Nat.add_sub_cancel_left]
    · intro hq
      exact ⟨j - n, hq, by omega⟩

section Rows

variable {paulis : List PauliUnitary} {n : ℕ} (h : ∀ p ∈ paulis, p.Below n)

include h

theorem row_asBitmatrix_range :
    let A := asBitmatrix paulis (List.range n)
    A.rowCount = paulis.length ∧ A.columnCount = 2 * n ∧ A.Clear ∧
      ∀ i (hi : i < paulis.length), A.row i = rowOfVector n paulis[i].toPhased.vector := by
  intro A
  obtain ⟨⟨hrows, hcolumns⟩, hrow⟩ := row_asBitmatrix paulis (List.range n)
  rw [length_range] at hcolumns
  have hrow' : ∀ i (hi : i < paulis.length),
      A.row i = rowOfVector n paulis[i].toPhased.vector :=
    fun i hi => (hrow i hi).trans (encode_range (h _ (getElem_mem hi)))
  refine ⟨hrows, hcolumns, fun i => ?_, hrow'⟩
  rcases Nat.lt_or_ge i paulis.length with hi | hi
  · rw [hrow' i hi, hcolumns]
    exact below_rowOfVector (h _ (getElem_mem hi))
  · rw [row_of_le (hrows.trans_le hi)]
    exact below_zero _

theorem rowSpace_asBitmatrix_range :
    let A := asBitmatrix paulis (List.range n)
    Bits.rowSpace A.rowCount A.row =
      (Submodule.span (ZMod 2) {v | ∃ p ∈ paulis, p.toPhased.vector = v}).map (rowOfVector n) := by
  intro A
  obtain ⟨hrows, -, -, hrow⟩ := row_asBitmatrix_range h
  rw [rowSpace_eq_span, Submodule.map_span]
  congr 1
  ext b
  constructor
  · rintro ⟨⟨i, hi⟩, rfl⟩
    exact ⟨_, ⟨_, getElem_mem (hrows ▸ hi), rfl⟩, (hrow i (hrows ▸ hi)).symm⟩
  · rintro ⟨_, ⟨p, hp, rfl⟩, rfl⟩
    obtain ⟨i, hi, rfl⟩ := mem_iff_getElem.mp hp
    exact ⟨⟨i, hrows.symm ▸ hi⟩, hrow i hi⟩

theorem below_of_mem_span {v : PauliVector}
    (hv : v ∈ Submodule.span (ZMod 2) {v | ∃ p ∈ paulis, p.toPhased.vector = v}) :
    v.operator.Below n := by
  induction hv using Submodule.span_induction with
  | mem v hv =>
    obtain ⟨p, hp, rfl⟩ := hv
    exact h p hp
  | zero => exact ⟨below_zero n, below_zero n⟩
  | add u v _ _ hu hv => exact ⟨hu.1.add hv.1, hu.2.add hv.2⟩
  | smul c v _ hv =>
    have hsmul : ∀ {b : Bits}, b.Below n → (c • b).Below n := by
      intro b hb
      rcases smul_eq c b with hc | hc
      · rw [hc]
        exact below_zero n
      · rwa [hc]
    exact ⟨hsmul hv.1, hsmul hv.2⟩

theorem echelonize_asBitmatrix_range :
    let form := EchelonForm.new (asBitmatrix paulis (List.range n))
    Bits.Reduced form.matrix.row form.pivots ∧ form.pivots.length ≤ paulis.length ∧
      (form.matrix.rowCount = paulis.length ∧ form.matrix.columnCount = 2 * n) ∧
        Bits.rowSpace paulis.length form.matrix.row =
          (Submodule.span (ZMod 2) {v | ∃ p ∈ paulis, p.toPhased.vector = v}).map
            (rowOfVector n) := by
  intro form
  have hform := eliminated_new (asBitmatrix paulis (List.range n))
  obtain ⟨hrows, hcolumns, hclear, -⟩ := row_asBitmatrix_range h
  have hlow : (fun i => Bits.low (asBitmatrix paulis (List.range n)).columnCount
      (form.matrix.row i)) = form.matrix.row := by
    refine funext fun i => low_eq_self ?_
    rw [hform.transforms.combine]
    exact below_combine _ fun j _ => hclear j
  have hreduced := hform.reduced
  have hspace := hform.rowSpace_eq
  have hentries := hclear.entries_eq
  unfold entries at hentries
  rw [hlow] at hreduced hspace
  rw [hentries, rowSpace_asBitmatrix_range h, hrows] at hspace
  exact ⟨hreduced, hrows ▸ hform.length_le, ⟨hform.transforms.rowCount.trans hrows,
    hform.transforms.columnCount.trans hcolumns⟩, hspace⟩

end Rows

theorem linearIndependent_iff_rows
    (h : ∀ p ∈ paulis, p.Below n) {g : ℕ → Bits}
    (hrow : ∀ i (hi : i < paulis.length), g i = rowOfVector n paulis[i].toPhased.vector) :
    LinearIndependent (ZMod 2) (fun i : Fin paulis.length => (paulis.get i).toPhased.vector) ↔
      Bits.Independent paulis.length g := by
  have hvectors : (fun i : Fin paulis.length => (paulis.get i).toPhased.vector) =
      fun i : Fin paulis.length => vectorOfRow n (g i) := by
    funext i
    rw [hrow i i.isLt, vectorOfRow_rowOfVector]
    · rfl
    · exact h _ (getElem_mem i.isLt)
  have hrows : (fun i : Fin paulis.length => g i) =
      rowOfVector n ∘ fun i => (paulis.get i).toPhased.vector :=
    funext fun i => hrow i i.isLt
  rw [independent_iff_linearIndependent]
  constructor
  · intro hindependent
    rw [hrows]
    refine hindependent.map_injOn _ fun u hu v hv huv => ?_
    have hbelow : ∀ {w}, w ∈ Submodule.span (ZMod 2)
        (Set.range fun i : Fin paulis.length => (paulis.get i).toPhased.vector) →
          w.operator.Below n := by
      intro w hw
      refine below_of_mem_span h (Submodule.span_mono ?_ hw)
      rintro _ ⟨i, rfl⟩
      exact ⟨_, get_mem paulis i, rfl⟩
    rw [← vectorOfRow_rowOfVector (hbelow hu), huv, vectorOfRow_rowOfVector (hbelow hv)]
  · intro hindependent
    rw [hvectors]
    refine hindependent.map_injOn _ ((injOn_vectorOfRow n).mono fun b hb => ?_)
    rw [← rowSpace_eq_span] at hb
    obtain ⟨t, ht, rfl⟩ := hb
    refine below_combine _ fun i hi => ?_
    have hlt : i < paulis.length := ht.lt_of_index hi
    rw [hrow i hlt]
    exact below_rowOfVector (h _ (getElem_mem hlt))

theorem rowOfVector_generator {column : ℕ} (hcolumn : column < 2 * n) :
    let generator := if column < n then x column else z (column - n)
    generator.Below n ∧ rowOfVector n generator.toPhased.vector = Bits.unit column := by
  dsimp only
  split_ifs with hlow
  · exact ⟨below_X.mpr hlow, rowOfVector_X n column⟩
  · rw [toPhased_z, rowOfVector_Z, Nat.sub_add_cancel (by omega)]
    exact ⟨below_Z.mpr (by omega), rfl⟩

theorem completeToFullPauliBasis_eq_some
    (h : ∀ p ∈ paulis, p.Below n)
    (hindependent : LinearIndependent (ZMod 2) fun i : Fin paulis.length =>
      (paulis.get i).toPhased.vector) :
    ∃ rest, completeToFullPauliBasis paulis n = some (paulis.map assigned ++ rest) ∧
      (paulis.map assigned ++ rest).length = 2 * n ∧
        (∀ p ∈ paulis.map assigned ++ rest, p.Below n) ∧
          LinearIndependent (ZMod 2) fun i : Fin (paulis.map assigned ++ rest).length =>
            ((paulis.map assigned ++ rest).get i).toPhased.vector := by
  obtain ⟨hrows, hcolumns, hclear, hrow⟩ := row_asBitmatrix_range h
  set A := asBitmatrix paulis (List.range n) with hA
  have hentries : Bits.Independent A.rowCount A.entries := by
    rw [hrows, hclear.entries_eq]
    exact (linearIndependent_iff_rows h hrow).mp hindependent
  obtain ⟨res, hres⟩ := A.completeToFullRankRowBasis_spec.1.mpr hentries
  obtain ⟨hrank, ⟨hresRows, hresColumns⟩, hfirst, hrest⟩ :=
    row_completeToFullRankRowBasis hres
  have hform := eliminated_new A
  set columns := complement (EchelonForm.new A).pivots A.columnCount
    with hcomplement
  have hmem : ∀ column ∈ columns, column < 2 * n :=
    fun column hcolumn => hcolumns ▸ (mem_complement.mp hcolumn).1
  have hlength : columns.length + paulis.length = 2 * n := by
    have hle := (subperm_of_subset hform.nodup_pivots fun j hj =>
      mem_range.mpr (hform.lt j hj)).length_le
    rw [length_range] at hle
    rw [hcomplement, length_complement hform.nodup_pivots fun j hj => hform.lt j hj]
    omega
  let rest := columns.map fun column => if column < n then x column else z (column - n)
  have hbasis : completeToFullPauliBasis paulis n = some (paulis.map assigned ++ rest) := by
    simp only [completeToFullPauliBasis, bitmatrixFromPaulis_eq h, Option.bind_eq_bind,
      Option.bind_some, echelonize_eq, ← hA]
    rw [if_neg (by omega), ← hcolumns]
  have hrestBelow : ∀ p ∈ rest, p.Below n := by
    intro p hp
    obtain ⟨column, hcolumn, rfl⟩ := mem_map.mp hp
    exact (rowOfVector_generator (hmem column hcolumn)).1
  have hfirstBelow : ∀ p ∈ paulis.map assigned, p.Below n := by
    intro p hp
    obtain ⟨p, hmem, rfl⟩ := mem_map.mp hp
    unfold Below
    exact h p hmem
  have hbelow : ∀ p ∈ paulis.map assigned ++ rest, p.Below n :=
    fun p hp => (mem_append.mp hp).elim (hfirstBelow p) (hrestBelow p)
  have hbasisLength : (paulis.map assigned ++ rest).length = 2 * n := by
    rw [length_append, length_map, length_map]
    omega
  -- The rows of the completed matrix are the rows of the basis.
  have hresRow : ∀ i (hi : i < (paulis.map assigned ++ rest).length),
      res.row i = rowOfVector n (paulis.map assigned ++ rest)[i].toPhased.vector := by
    intro i hi
    rcases Nat.lt_or_ge i paulis.length with hlow | hhigh
    · rw [getElem_append_left (by simpa using hlow), getElem_map, toPhased_assigned,
        hfirst i (by omega), hrow i hlow]
    · have hk : i - paulis.length < columns.length := by omega
      have hread := hrest (i - paulis.length) hk
      rw [hrows, Nat.add_sub_cancel' hhigh] at hread
      rw [hread, getElem_append_right (by simpa using hhigh)]
      simp only [length_map, rest, getElem_map]
      exact (rowOfVector_generator (hmem _ (getElem_mem hk))).2.symm
  refine ⟨rest, hbasis, hbasisLength, hbelow, (linearIndependent_iff_rows hbelow hresRow).mpr ?_⟩
  have hcompletion := independent_completion hres
  rw [hresRows, hcolumns, ← hbasisLength] at hcompletion
  refine hcompletion.congr fun i hi => low_eq_self ?_
  rw [hresColumns, hcolumns, hresRow i hi]
  exact below_rowOfVector (hbelow _ (getElem_mem hi))

theorem completeToFullPauliBasis_eq_none
    (h : ∀ p ∈ paulis, p.Below n)
    (hdependent : ¬ LinearIndependent (ZMod 2) fun i : Fin paulis.length =>
      (paulis.get i).toPhased.vector) : completeToFullPauliBasis paulis n = none := by
  obtain ⟨hrows, -, hclear, hrow⟩ := row_asBitmatrix_range h
  have hrank := independent_entries_iff
    (eliminated_new (asBitmatrix paulis (List.range n)))
  rw [hclear.entries_eq, hrows, ← linearIndependent_iff_rows h hrow] at hrank
  simp only [completeToFullPauliBasis, bitmatrixFromPaulis_eq h, Option.bind_eq_bind,
    Option.bind_some, echelonize_eq]
  exact if_pos fun hlength => hdependent (hrank.mpr hlength)

theorem paulisQubitCount_le_iff :
    paulisQubitCount paulis ≤ n ↔ ∀ p ∈ paulis, p.Below n := by
  have hcount : ∀ p : PauliUnitary, p.qubitCount ≤ n ↔ p.Below n := by
    intro p
    rw [below_iff_maxSupport, qubitCount]
    cases p.maxSupport <;> simp
  simp only [← hcount]
  unfold paulisQubitCount
  cases hmax : (paulis.map qubitCount).max? with
  | none =>
    have hempty : paulis = [] := by simpa using max?_eq_none_iff.mp hmax
    simp [hempty]
  | some count =>
    rw [Option.getD_some, max?_le_iff hmax]
    simp

theorem paulisQubitCount_le_of_span_le {left right : List PauliUnitary}
    (h : Submodule.span (ZMod 2) {v | ∃ p ∈ left, p.toPhased.vector = v} ≤
      Submodule.span (ZMod 2) {v | ∃ p ∈ right, p.toPhased.vector = v}) :
    paulisQubitCount left ≤ paulisQubitCount right := by
  rw [paulisQubitCount_le_iff]
  intro p hp
  exact below_of_mem_span (paulisQubitCount_le_iff.mp le_rfl)
    (h (Submodule.subset_span ⟨p, hp, rfl⟩))

theorem span_eq_iff_map_eq {left right : List PauliUnitary} (hleft : ∀ p ∈ left, p.Below n)
    (hright : ∀ p ∈ right, p.Below n) :
    Submodule.span (ZMod 2) {v | ∃ p ∈ left, p.toPhased.vector = v} =
        Submodule.span (ZMod 2) {v | ∃ p ∈ right, p.toPhased.vector = v} ↔
      (Submodule.span (ZMod 2) {v | ∃ p ∈ left, p.toPhased.vector = v}).map (rowOfVector n) =
        (Submodule.span (ZMod 2) {v | ∃ p ∈ right, p.toPhased.vector = v}).map (rowOfVector n) := by
  have hback : ∀ {S : Submodule (ZMod 2) PauliVector}, (∀ v ∈ S, v.operator.Below n) →
      (S.map (rowOfVector n)).map (vectorOfRow n) = S := by
    intro S hS
    rw [← Submodule.map_comp]
    ext v
    constructor
    · rintro ⟨u, hu, rfl⟩
      rwa [LinearMap.comp_apply, vectorOfRow_rowOfVector (hS u hu)]
    · intro hv
      exact ⟨v, hv, vectorOfRow_rowOfVector (hS v hv)⟩
  constructor
  · intro h
    rw [h]
  · intro h
    rw [← hback fun v hv => below_of_mem_span hleft hv, h, hback fun v hv =>
      below_of_mem_span hright hv]

theorem all_zip_range_iff {a b : ℕ → Bits} {left right rank : ℕ} (hleft : rank ≤ left)
    (hright : rank ≤ right) :
    ((((List.range left).take rank).zip ((List.range right).take rank)).all
      fun (rowLeft, rowRight) => a rowLeft == b rowRight) = true ↔ ∀ i, i < rank → a i = b i := by
  have hzip : (List.range rank).zip (List.range rank) = (List.range rank).map fun i => (i, i) := by
    rw [zip_eq_zipWith, zipWith_self]
  rw [take_range, take_range, Nat.min_eq_left hleft, Nat.min_eq_left hright, hzip]
  simp

theorem areTheSameGroupUpToPhases_eq (left right : List PauliUnitary) :
    ∃ same, areTheSameGroupUpToPhases left right = some same ∧
      (same = true ↔ Submodule.span (ZMod 2) {v | ∃ p ∈ left, p.toPhased.vector = v} =
        Submodule.span (ZMod 2) {v | ∃ p ∈ right, p.toPhased.vector = v}) := by
  unfold areTheSameGroupUpToPhases
  by_cases hcount : paulisQubitCount right = paulisQubitCount left
  · rw [if_neg (not_not_intro hcount)]
    have hleft : ∀ p ∈ left, p.Below (paulisQubitCount left) :=
      paulisQubitCount_le_iff.mp le_rfl
    have hright : ∀ p ∈ right, p.Below (paulisQubitCount left) :=
      paulisQubitCount_le_iff.mp hcount.le
    rw [span_eq_iff_map_eq hleft hright]
    obtain ⟨hreduced, hlength, ⟨hrows, hcolumns⟩, hspace⟩ := echelonize_asBitmatrix_range hleft
    obtain ⟨hreduced', hlength', ⟨hrows', hcolumns'⟩, hspace'⟩ :=
      echelonize_asBitmatrix_range hright
    simp only [bitmatrixFromPaulis_eq hleft, bitmatrixFromPaulis_eq hright, Option.bind_eq_bind,
      Option.bind_some, echelonize_eq]
    rw [← hspace, ← hspace']
    by_cases hrank : (EchelonForm.new (asBitmatrix left
        (List.range (paulisQubitCount left)))).pivots.length =
          (EchelonForm.new (asBitmatrix right
            (List.range (paulisQubitCount left)))).pivots.length
    · rw [if_pos hrank]
      refine ⟨_, rfl, ?_⟩
      rw [Bool.and_eq_true, beq_iff_eq, hcolumns, hcolumns', and_iff_right rfl,
        all_zip_range_iff (by omega) (by omega)]
      constructor
      · intro hequal
        rw [hreduced.rowSpace_eq_rowSpace_length hlength,
          hreduced'.rowSpace_eq_rowSpace_length hlength', ← hrank]
        exact rowSpace_congr hequal
      · intro hspaces i _
        exact congrFun (hreduced.unique hreduced' hlength hlength' hspaces).2 i
    · rw [if_neg hrank]
      refine ⟨false, rfl, ?_⟩
      rw [iff_false_left (by simp)]
      intro hspaces
      exact hrank (congrArg List.length (hreduced.unique hreduced' hlength hlength' hspaces).1)
  · rw [if_pos hcount]
    refine ⟨false, rfl, ?_⟩
    rw [iff_false_left (by simp)]
    intro hspan
    exact hcount (le_antisymm (paulisQubitCount_le_of_span_le hspan.ge)
      (paulisQubitCount_le_of_span_le hspan.le))

/-- The completion of independent Paulis is a basis that begins with them, and the comparison of
two lists decides whether their vectors span the same space. -/
theorem completeToFullPauliBasis_and_areTheSameGroupUpToPhases :
    (∀ (paulis : List PauliUnitary) (n : ℕ), (∀ p ∈ paulis, p.Below n) →
      ((LinearIndependent (ZMod 2) fun i : Fin paulis.length =>
          (paulis.get i).toPhased.vector) →
        ∃ basis, completeToFullPauliBasis paulis n = some basis ∧ basis.length = 2 * n ∧
          (∀ p ∈ basis, p.Below n) ∧ (LinearIndependent (ZMod 2) fun i : Fin basis.length =>
              (basis.get i).toPhased.vector) ∧
              (basis.take paulis.length).map toPhased = paulis.map toPhased) ∧
        ((¬ LinearIndependent (ZMod 2) fun i : Fin paulis.length =>
            (paulis.get i).toPhased.vector) → completeToFullPauliBasis paulis n = none)) ∧
      ∀ left right : List PauliUnitary, ∃ same, areTheSameGroupUpToPhases left right = some same ∧
          (same = true ↔ Submodule.span (ZMod 2) {v | ∃ p ∈ left, p.toPhased.vector = v} =
            Submodule.span (ZMod 2) {v | ∃ p ∈ right, p.toPhased.vector = v}) := by
  refine ⟨fun paulis n h => ⟨fun hindependent => ?_, completeToFullPauliBasis_eq_none h⟩,
    areTheSameGroupUpToPhases_eq⟩
  obtain ⟨rest, hbasis, hlength, hbelow, hbasisIndependent⟩ :=
    completeToFullPauliBasis_eq_some h hindependent
  refine ⟨_, hbasis, hlength, hbelow, hbasisIndependent, ?_⟩
  rw [take_left' (length_map assigned), map_map]
  exact map_congr_left fun p _ => toPhased_assigned p

end PauliUnitary

end QdkEc
