import QdkEc.Binar.BlockForms
import QdkEc.Binar.KernelBasis
import QdkEc.Paulimer.CliffordTransvection
import QdkEc.Paulimer.PauliGroupStandardForm

/-!
# The fixed space of a Clifford unitary

This module models `clifford_fixed_space`: the Paulis that a Clifford unitary
fixes up to sign are the left kernel of its residue matrix, whose rows are the
residues of the generators.
-/

namespace QdkEc

open PhasedPauli PauliVector Bits List AlignedBitMatrix

namespace CliffordUnitary

open PauliUnitary (residueVector assignPositiveHermitianPhase)

/-- Set the entries of one row at the bits of a residue vector. -/
def assignResidueRow (qubitCount row : ℕ) (vector : PauliUnitary) (residue : AlignedBitMatrix) :
    AlignedBitMatrix :=
  (List.range qubitCount).foldl (fun residue qubit =>
    let residue := if vector.xBits.index qubit then residue.set row qubit true else residue
    if vector.zBits.index qubit then residue.set row (qubitCount + qubit) true else residue)
    residue

/-- The matrix whose rows are the residue vectors of the generators. -/
def residueMatrix (clifford : CliffordUnitary) : AlignedBitMatrix :=
  let qubitCount := clifford.numQubits
  (symplecticBasis qubitCount).zipIdx.foldl (fun residue (basis, row) =>
    assignResidueRow qubitCount row (residueVector basis (clifford.image basis)) residue)
    (.zeros (2 * qubitCount) (2 * qubitCount))

/-- The positive Hermitian Pauli of one row of a kernel. -/
def fixedGenerator (qubitCount : ℕ) (kernel : AlignedBitMatrix) (row : ℕ) : PauliUnitary :=
  let xBits := Bits.fromIndices ((List.range qubitCount).filter fun qubit => kernel.get row qubit)
  let zBits := Bits.fromIndices
    ((List.range qubitCount).filter fun qubit => kernel.get row (qubitCount + qubit))
  PauliUnitary.assignPositiveHermitianPhase ⟨xBits, zBits, 0⟩

def cliffordFixedSpace (clifford : CliffordUnitary) : List PauliUnitary :=
  let kernel := clifford.residueMatrix.transposed.kernelBasisMatrix
  (List.range kernel.rowCount).map (fixedGenerator clifford.numQubits kernel)

/-- The vector of a row: its first bits, then its next bits. -/
def vectorOfRow (n : ℕ) : Bits →ₗ[ZMod 2] PauliVector :=
  AddMonoidHom.toZModLinearMap 2
    { toFun b := (b.low n, (b.shiftDown n).low n)
      map_zero' := by
        refine Prod.ext (ext_index fun i => ?_) (ext_index fun i => ?_) <;> simp
      map_add' a b := by
        refine Prod.ext (ext_index fun i => ?_) (ext_index fun i => ?_)
        · simp only [Prod.fst_add, index_low, index_add]
          cases decide (i < n) <;> simp
        · simp only [Prod.snd_add, index_low, index_shiftDown, index_add]
          cases decide (i < n) <;> simp }

theorem vectorOfRow_apply (n : ℕ) (b : Bits) : vectorOfRow n b = (b.low n, (b.shiftDown n).low n) :=
  rfl

variable {v : PauliVector}

theorem vectorOfRow_rowOfVector {n : ℕ} (hv : v.operator.Below n) :
    vectorOfRow n (rowOfVector n v) = v := by
  obtain ⟨hx, hz⟩ := hv
  rw [vectorOfRow_apply, rowOfVector_apply]
  refine Prod.ext (ext_index fun i => ?_) (ext_index fun i => ?_)
  · rw [index_low, index_add, index_shiftUp]
    by_cases hi : i < n
    · rw [decide_eq_true hi, decide_eq_false (by omega), Bool.false_and, Bool.xor_false,
        Bool.true_and]
    · rw [decide_eq_false hi, Bool.false_and]
      exact (hx.index_eq_false (by omega)).symm
  · rw [index_low, index_shiftDown, index_add, index_shiftUp,
      decide_eq_true (by omega : n ≤ n + i), Nat.add_sub_cancel_left, Bool.true_and]
    have hlow : v.1.index (n + i) = false := hx.index_eq_false (by omega)
    rw [hlow, Bool.false_xor]
    by_cases hi : i < n
    · rw [decide_eq_true hi, Bool.true_and]
    · rw [decide_eq_false hi, Bool.false_and]
      exact (hz.index_eq_false (by omega)).symm

theorem rowOfVector_vectorOfRow {n : ℕ} {b : Bits} (hb : b.Below (2 * n)) :
    rowOfVector n (vectorOfRow n b) = b := by
  rw [vectorOfRow_apply, rowOfVector_apply]
  refine ext_index fun i => ?_
  simp only [index_add, index_shiftUp, index_low, index_shiftDown]
  by_cases hlow : i < n
  · rw [decide_eq_true hlow, decide_eq_false (by omega : ¬ n ≤ i), Bool.false_and,
      Bool.xor_false, Bool.true_and]
  · rw [decide_eq_false hlow, decide_eq_true (by omega : n ≤ i), Bool.false_and, Bool.false_xor,
      Bool.true_and, Nat.add_sub_cancel' (by omega)]
    by_cases hhigh : i - n < n
    · rw [decide_eq_true hhigh, Bool.true_and]
    · rw [decide_eq_false hhigh, Bool.false_and]
      exact (hb.index_eq_false (by omega)).symm

theorem below_vectorOfRow (n : ℕ) (b : Bits) : (vectorOfRow n b).operator.Below n :=
  ⟨below_low _ _, below_low _ _⟩

theorem below_rowOfVector {n : ℕ} (hv : v.operator.Below n) : (rowOfVector n v).Below (2 * n) := by
  rw [below_iff]
  intro i hi
  have hx : v.1.index i = false := hv.1.index_eq_false (by omega)
  have hz : v.2.index (i - n) = false := hv.2.index_eq_false (by omega)
  rw [rowOfVector_apply, index_add, index_shiftUp, hx, hz, Bool.and_false]
  rfl

theorem rowOfVector_eq_zero_iff {n : ℕ} (hv : v.operator.Below n) :
    rowOfVector n v = 0 ↔ v = 0 := by
  constructor
  · intro hzero
    rw [← vectorOfRow_rowOfVector hv, hzero, map_zero]
  · rintro rfl
    exact map_zero _

variable {m : AlignedBitMatrix}

theorem get_set_of_bit {row : ℕ} (hrow : row < m.rowCount) (bit : Bool) (column i j : ℕ) :
    (if bit then m.set row column true else m).get i j =
      (m.get i j || (bit && decide (i = row ∧ j = column))) := by
  cases bit with
  | false => simp
  | true =>
    rw [if_pos rfl, get_set hrow]
    by_cases hij : i = row ∧ j = column
    · simp [hij]
    · rw [if_neg hij, decide_eq_false hij, Bool.and_false, Bool.or_false]

theorem rowCount_set_of_bit (m : AlignedBitMatrix) (row column : ℕ) (bit : Bool) :
    (if bit then m.set row column true else m).rowCount = m.rowCount ∧
      (if bit then m.set row column true else m).columnCount = m.columnCount := by
  cases bit <;> exact ⟨by simp, rfl⟩

theorem get_foldl_residueRow {row : ℕ} (hrow : row < m.rowCount) (n : ℕ)
    (vector : PauliUnitary) {k : ℕ} (hk : k ≤ n) :
    let written := (List.range k).foldl (fun residue qubit =>
      let residue := if vector.xBits.index qubit then residue.set row qubit true else residue
      if vector.zBits.index qubit then residue.set row (n + qubit) true else residue) m
    (written.rowCount = m.rowCount ∧ written.columnCount = m.columnCount) ∧
      ∀ i j, written.get i j = (m.get i j || (decide (i = row) &&
        (decide (j < k) && vector.xBits.index j ||
          decide (n ≤ j ∧ j < n + k) && vector.zBits.index (j - n)))) := by
  induction k with
  | zero =>
    refine ⟨⟨rfl, rfl⟩, fun i j => ?_⟩
    simp
  | succ k ih =>
    obtain ⟨hcounts, hget⟩ := ih (by omega)
    rw [range_succ, foldl_append, foldl_cons, foldl_nil]
    generalize (List.range k).foldl _ m = M at hcounts hget ⊢
    obtain ⟨hrows, hcolumns⟩ := rowCount_set_of_bit M row k (vector.xBits.index k)
    have hrowM : row < M.rowCount := by omega
    constructor
    · rw [(rowCount_set_of_bit _ row (n + k) _).1, (rowCount_set_of_bit _ row (n + k) _).2, hrows,
        hcolumns]
      exact hcounts
    · intro i j
      rw [get_set_of_bit (by omega), get_set_of_bit hrowM, hget]
      by_cases hi : i = row
      · rcases Nat.lt_trichotomy j k with hj | rfl | hj
        · simp [hi, hj, show j < k + 1 by omega, show j ≠ k by omega, show j ≠ n + k by omega,
            show ¬ n ≤ j by omega]
        · simp [hi, show ¬ n ≤ j by omega, show n ≠ 0 by omega]
        · rcases Nat.lt_trichotomy j (n + k) with hjn | rfl | hjn
          · simp [hi, show ¬ j < k by omega, show ¬ j < k + 1 by omega, show j ≠ k by omega,
              show j ≠ n + k by omega, hjn, show j < n + (k + 1) by omega]
          · simp [hi, show ¬ n + k < k by omega, show ¬ n + k < k + 1 by omega,
              show n ≠ 0 by omega]
          · simp [hi, show ¬ j < k by omega, show ¬ j < k + 1 by omega, show j ≠ k by omega,
              show j ≠ n + k by omega, show ¬ j < n + k by omega,
              show ¬ j < n + (k + 1) by omega]
      · simp [hi]

theorem row_assignResidueRow {row n : ℕ} (hrow : row < m.rowCount)
    (hzero : m.row row = 0) {vector : PauliUnitary} (hvector : vector.Below n) :
    ((assignResidueRow n row vector m).rowCount = m.rowCount ∧
        (assignResidueRow n row vector m).columnCount = m.columnCount) ∧
      ∀ i, (assignResidueRow n row vector m).row i =
        if i = row then rowOfVector n vector.toPhased.vector else m.row i := by
  obtain ⟨hcounts, hget⟩ := get_foldl_residueRow hrow n vector le_rfl
  refine ⟨hcounts, fun i => ext_index fun j => ?_⟩
  refine (hget i j).trans ?_
  split_ifs with hi
  · subst hi
    rw [AlignedBitMatrix.get, hzero, index_zero, Bool.false_or, decide_eq_true rfl,
      Bool.true_and, rowOfVector_apply, index_add, index_shiftUp]
    change _ = (vector.xBits.index j ^^ (decide (n ≤ j) && vector.zBits.index (j - n)))
    by_cases hlow : j < n
    · simp [hlow, show ¬ n ≤ j by omega]
    · have hx : vector.xBits.index j = false := hvector.1.index_eq_false (by omega)
      by_cases hhigh : j < n + n
      · simp [hlow, hx, hhigh, show n ≤ j by omega]
      · have hz : vector.zBits.index (j - n) = false := hvector.2.index_eq_false (by omega)
        simp [hlow, hx, hz]
  · rw [decide_eq_false hi, Bool.false_and, Bool.or_false]
    rfl

theorem row_foldl_assignResidueRow (n : ℕ) (basis : List PauliUnitary)
    (vector : PauliUnitary → PauliUnitary) (hvector : ∀ p ∈ basis, (vector p).Below n)
    (m : AlignedBitMatrix) (start : ℕ) (hcount : start + basis.length ≤ m.rowCount)
    (hzero : ∀ i, start ≤ i → m.row i = 0) :
    let written := (basis.zipIdx start).foldl (fun residue (p, row) =>
      assignResidueRow n row (vector p) residue) m
    (written.rowCount = m.rowCount ∧ written.columnCount = m.columnCount) ∧
      (∀ i, i < start → written.row i = m.row i) ∧
        ∀ i (hi : i < basis.length),
          written.row (start + i) = rowOfVector n (vector basis[i]).toPhased.vector := by
  induction basis generalizing m start with
  | nil => exact ⟨⟨rfl, rfl⟩, fun _ _ => rfl, fun i hi => absurd hi (Nat.not_lt_zero i)⟩
  | cons p basis ih =>
    rw [length_cons] at hcount
    obtain ⟨hcounts, hrow⟩ := row_assignResidueRow (by omega) (hzero start le_rfl)
      (hvector p mem_cons_self)
    obtain ⟨hcounts', hbefore, hafter⟩ := ih (fun q hq => hvector q (mem_cons_of_mem p hq))
      (assignResidueRow n start (vector p) m) (start + 1) (by omega)
      (fun i hi => by rw [hrow, if_neg (by omega), hzero i (by omega)])
    refine ⟨⟨hcounts'.1.trans hcounts.1, hcounts'.2.trans hcounts.2⟩, ?_, ?_⟩
    · intro i hi
      refine (hbefore i (by omega)).trans ?_
      rw [hrow, if_neg (by omega)]
    · intro i hi
      cases i with
      | zero =>
        refine (hbefore start (by omega)).trans ?_
        rw [hrow, if_pos rfl]
        rfl
      | succ i =>
        have := hafter i (by simpa using hi)
        rwa [Nat.add_assoc, Nat.add_comm 1] at this

section Residue

variable {C : CliffordUnitary} (hf : C.frame.Valid)

theorem vector_symplecticBasis {n i : ℕ} (hi : i < (symplecticBasis n).length) :
    (symplecticBasis n)[i].toPhased.vector = vectorOfRow n (unit i) := by
  have hlength := hi
  rw [symplecticBasis, length_append, length_map, length_map, length_range]
    at hlength
  by_cases hlow : i < n
  · rw [← rowOfVector_X n i, vectorOfRow_rowOfVector (below_X.mpr hlow)]
    simp only [symplecticBasis, getElem_append, length_map, length_range, hlow,
      dite_true, getElem_map, getElem_range, PauliUnitary.toPhased_x]
  · obtain ⟨q, rfl⟩ := Nat.exists_eq_add_of_le' (Nat.not_lt.mp hlow)
    rw [← rowOfVector_Z n q, vectorOfRow_rowOfVector (below_Z.mpr (by omega))]
    simp only [symplecticBasis, getElem_append, length_map, length_range, hlow,
      dite_false, getElem_map, getElem_range, PauliUnitary.toPhased_z,
      Nat.add_sub_cancel]

theorem length_symplecticBasis (n : ℕ) : (symplecticBasis n).length = 2 * n := by
  simp [symplecticBasis, Nat.two_mul]

include hf

theorem row_residueMatrix : (C.residueMatrix.rowCount = 2 * C.numQubits ∧
        C.residueMatrix.columnCount = 2 * C.numQubits) ∧
      ∀ i, i < 2 * C.numQubits → C.residueMatrix.row i =
        rowOfVector C.numQubits (vectorOfRow C.numQubits (unit i) +
          imageAction hf (vectorOfRow C.numQubits (unit i))) := by
  obtain ⟨⟨hrows, hcolumns⟩, -, hrow⟩ := row_foldl_assignResidueRow C.numQubits
    (symplecticBasis C.numQubits) (fun p => residueVector p (C.image p))
    (fun p hp => PauliUnitary.below_residueVector (below_of_mem_symplecticBasis hp)
      (below_image hf (below_of_mem_symplecticBasis hp)))
    (.zeros (2 * C.numQubits) (2 * C.numQubits)) 0
    (by simp [length_symplecticBasis]) (fun i _ => by simp)
  rw [rowCount_zeros] at hrows
  refine ⟨⟨hrows, hcolumns⟩, fun i hi => ?_⟩
  have hlt : i < (symplecticBasis C.numQubits).length := by rwa [length_symplecticBasis]
  have hentry := hrow i hlt
  rw [Nat.zero_add] at hentry
  refine hentry.trans ?_
  rw [vector_residueVector_image hf (below_of_mem_symplecticBasis (getElem_mem hlt)),
    vector_symplecticBasis hlt]

theorem below_imageAction (hv : v.operator.Below C.numQubits) :
    (imageAction hf v).operator.Below C.numQubits := by
  obtain ⟨p, hp⟩ := PauliGroup.exists_toPhased v.operator
  have hbelow : p.Below C.numQubits := by
    unfold PauliUnitary.Below
    rwa [hp]
  have himage := imageAction_eq_image hf hbelow
  rw [hp, vector_operator] at himage
  rw [himage]
  exact below_image hf hbelow

theorem mulVec_residueMatrix_eq_zero_iff {x : Bits} (hx : x.Below (2 * C.numQubits)) :
    C.residueMatrix.transposed.mulVec x = 0 ↔
      imageAction hf (vectorOfRow C.numQubits x) = vectorOfRow C.numQubits x := by
  obtain ⟨⟨hrows, hcolumns⟩, hrow⟩ := row_residueMatrix hf
  let residue : PauliVector →ₗ[ZMod 2] PauliVector := LinearMap.id + imageAction hf
  let rows : Bits →ₗ[ZMod 2] Bits :=
    rowOfVector C.numQubits ∘ₗ residue ∘ₗ vectorOfRow C.numQubits
  have hresidue (b : Bits) : (residue (vectorOfRow C.numQubits b)).operator.Below C.numQubits :=
    ⟨(below_vectorOfRow _ b).1.add (below_imageAction hf (below_vectorOfRow _ b)).1,
      (below_vectorOfRow _ b).2.add (below_imageAction hf (below_vectorOfRow _ b)).2⟩
  have hcolumn : ∀ i, i < 2 * C.numQubits →
      C.residueMatrix.transposed.column i = rows (unit i) := by
    intro i hi
    refine ext_index fun j => ?_
    rw [index_column]
    rcases Nat.lt_or_ge j (2 * C.numQubits) with hj | hj
    · rw [get_transposed (by omega), AlignedBitMatrix.get, hrow i hi]
      rfl
    · rw [get_eq_false_of_le (by simpa [hcolumns] using hj)]
      exact ((below_rowOfVector (hresidue _)).index_eq_false hj).symm
  have hcombine : C.residueMatrix.transposed.mulVec x = rows x := by
    rw [← combine_column, combine_congr hx hcolumn]
    have hmap := map_combine unit rows.toAddMonoidHom x
    rw [combine_units] at hmap
    exact hmap.symm
  rw [hcombine]
  refine (rowOfVector_eq_zero_iff (hresidue x)).trans ?_
  change vectorOfRow C.numQubits x + imageAction hf (vectorOfRow C.numQubits x) = 0 ↔ _
  rw [← ZModModule.sub_eq_add, sub_eq_zero, eq_comm]

end Residue

theorem vector_fixedGenerator (n : ℕ) (kernel : AlignedBitMatrix) (row : ℕ) :
    (fixedGenerator n kernel row).toPhased.vector = vectorOfRow n (kernel.row row) := by
  refine Prod.ext (ext_index fun j => ?_) (ext_index fun j => ?_)
  · change (fromIndices _).index j = _
    rw [index_fromIndices, vectorOfRow_apply, index_low]
    simp [AlignedBitMatrix.get]
  · change (fromIndices _).index j = _
    rw [index_fromIndices, vectorOfRow_apply, index_low, index_shiftDown]
    simp [AlignedBitMatrix.get]

theorem injOn_vectorOfRow (n : ℕ) : Set.InjOn (vectorOfRow n) {b | b.Below (2 * n)} := by
  intro a ha b hb h
  rw [← rowOfVector_vectorOfRow ha, h, rowOfVector_vectorOfRow hb]

theorem image_eq_or_neg_iff {C : CliffordUnitary} (hf : C.frame.Valid) {p : PauliUnitary}
    (hp : p.Below C.numQubits) :
    (C.image p).toPhased = p.toPhased ∨ (C.image p).toPhased = iPow 2 * p.toPhased ↔
      imageAction hf p.toPhased.vector = p.toPhased.vector := by
  rw [imageAction_eq_image hf hp]
  constructor
  · rintro (h | h)
    · rw [h]
    · rw [h, vector_iPow_mul]
  · intro h
    obtain ⟨k, hk⟩ := exists_iPow_mul_of_vector_eq h.symm
    have hsquare : k + k = 0 := by
      obtain ⟨b, hb⟩ := mul_self_eq p.toPhased
      have hlift : C.frame.lift ((C.image p).toPhased * (C.image p).toPhased) = iPow (twist b) := by
        rw [hf.lift_mul, lift_image hf hp, hb]
      have himage : (C.image p).toPhased * (C.image p).toPhased = iPow (k + k + twist b) := by
        rw [← hk, mul_iPow_mul, mul_assoc, hb, ← mul_assoc, ← iPow_add, ← iPow_add]
      rw [himage, GeneratorFrame.lift_iPow] at hlift
      exact add_eq_right.mp (congrArg PhasedPauli.phase hlift)
    have hcases : ∀ k : ZMod 4, k + k = 0 → k = 0 ∨ k = 2 := by decide
    rcases hcases k hsquare with rfl | rfl
    · exact Or.inl (by rw [← hk, iPow_zero, one_mul])
    · exact Or.inr hk.symm

section Generators

variable {n : ℕ} {kernel : AlignedBitMatrix}

theorem linearIndependent_get {l : List PauliUnitary} {k : ℕ} {f : ℕ → PauliVector}
    (hlength : l.length = k) (hget : ∀ i (hi : i < l.length), l[i].toPhased.vector = f i)
    (h : LinearIndependent (ZMod 2) fun i : Fin k => f i) :
    LinearIndependent (ZMod 2) fun i : Fin l.length => (l.get i).toPhased.vector := by
  subst hlength
  have hfun : (fun i : Fin l.length => (l.get i).toPhased.vector) = fun i => f i.val :=
    funext fun i => hget i.val i.isLt
  rw [hfun]
  exact h

variable (hbelow : ∀ r, r < kernel.rowCount → (kernel.row r).Below (2 * n))

include hbelow

theorem below_of_mem_rowSpace {b : Bits} (hb : b ∈ rowSpace kernel.rowCount kernel.row) :
    b.Below (2 * n) := by
  obtain ⟨t, ht, rfl⟩ := hb
  exact below_combine _ fun r hr => hbelow r (ht.lt_of_index hr)

theorem linearIndependent_fixedGenerators
    (hindependent : Bits.Independent kernel.rowCount kernel.row) :
    let generators := (List.range kernel.rowCount).map (fixedGenerator n kernel)
    LinearIndependent (ZMod 2) fun i : Fin generators.length =>
      (generators.get i).toPhased.vector := by
  intro generators
  have hlength : generators.length = kernel.rowCount := by rw [length_map, length_range]
  refine linearIndependent_get (f := fun i => vectorOfRow n (kernel.row i)) hlength ?_ ?_
  · intro i hi
    simp only [generators, getElem_map, getElem_range, vector_fixedGenerator]
  · refine hindependent.linearIndependent.map_injOn _ ((injOn_vectorOfRow n).mono fun b hb => ?_)
    rw [← rowSpace_eq_span] at hb
    exact below_of_mem_rowSpace hbelow hb

theorem mem_span_fixedGenerators_iff (hv : v.operator.Below n) :
    v ∈ Submodule.span (ZMod 2) (vector '' {p | ∃ g ∈ (List.range kernel.rowCount).map
        (fixedGenerator n kernel), g.toPhased = p}) ↔
      rowOfVector n v ∈ rowSpace kernel.rowCount kernel.row := by
  have himage : vector '' {p | ∃ g ∈ (List.range kernel.rowCount).map (fixedGenerator n kernel),
        g.toPhased = p} =
      vectorOfRow n '' Set.range fun i : Fin kernel.rowCount => kernel.row i := by
    ext u
    constructor
    · rintro ⟨_, ⟨g, hg, rfl⟩, rfl⟩
      obtain ⟨i, hi, rfl⟩ := mem_map.mp hg
      exact ⟨_, ⟨⟨i, mem_range.mp hi⟩, rfl⟩, (vector_fixedGenerator n kernel i).symm⟩
    · rintro ⟨_, ⟨i, rfl⟩, rfl⟩
      exact ⟨_, ⟨_, mem_map_of_mem (mem_range.mpr i.isLt), rfl⟩, vector_fixedGenerator n kernel i⟩
  rw [himage, Submodule.span_image, ← rowSpace_eq_span]
  constructor
  · rintro ⟨b, hb, rfl⟩
    rwa [rowOfVector_vectorOfRow (below_of_mem_rowSpace hbelow hb)]
  · intro hrow
    exact ⟨_, hrow, vectorOfRow_rowOfVector hv⟩

end Generators

/-- The fixed space of a Clifford unitary. -/
theorem cliffordFixedSpace_spec {n : ℕ} (C : CliffordUnitary) (hC : C.ValidOn n) :
    (∀ p ∈ C.cliffordFixedSpace, p.isOrderTwo = true ∧ p.Below n) ∧
      (LinearIndependent (ZMod 2) fun i : Fin C.cliffordFixedSpace.length =>
        (C.cliffordFixedSpace.get i).toPhased.vector) ∧ ∀ p : PauliUnitary, p.Below n →
        ((∃ k, iPow k * p.toPhased ∈ PauliGroup.generatedBy C.cliffordFixedSpace) ↔
          (C.image p).toPhased = p.toPhased ∨ (C.image p).toPhased = iPow 2 * p.toPhased) := by
  have hf := hC.frame
  obtain rfl : C.numQubits = n := hC.numQubits_eq
  obtain ⟨-, hindependent, hspan⟩ := C.residueMatrix.transposed.kernelBasisMatrix_spec
  unfold cliffordFixedSpace
  generalize C.residueMatrix.transposed.kernelBasisMatrix = kernel at hindependent hspan ⊢
  have hkernel (b : Bits) : b ∈ rowSpace kernel.rowCount kernel.row ↔
      b.Below (2 * C.numQubits) ∧
        imageAction hf (vectorOfRow C.numQubits b) = vectorOfRow C.numQubits b := by
    rw [hspan, columnCount_transposed, (row_residueMatrix hf).1.1]
    exact and_congr_right fun hb => mulVec_residueMatrix_eq_zero_iff hf hb
  have hbelow : ∀ r, r < kernel.rowCount → (kernel.row r).Below (2 * C.numQubits) :=
    fun r hr => ((hkernel _).mp (row_mem_rowSpace kernel.row hr)).1
  refine ⟨?_, linearIndependent_fixedGenerators hbelow hindependent, ?_⟩
  · intro p hp
    obtain ⟨r, -, rfl⟩ := mem_map.mp hp
    refine ⟨PauliUnitary.isOrderTwo_iff.mpr ?_, ?_⟩
    · exact PauliUnitary.orderTwo_assignPositiveHermitianPhase _
    · have hvector := below_vectorOfRow C.numQubits (kernel.row r)
      rw [← vector_fixedGenerator] at hvector
      exact hvector
  · intro p hp
    have hvector : p.toPhased.vector.operator.Below C.numQubits := hp
    rw [PauliGroup.generatedBy, ← vector_mem_span_iff, mem_span_fixedGenerators_iff hbelow hvector,
      hkernel, vectorOfRow_rowOfVector hvector, image_eq_or_neg_iff hf hp]
    exact and_iff_right (below_rowOfVector hvector)

/-- The phase gate on one qubit. -/
theorem cliffordFixedSpace_spec_rootZ : ((identity 1).leftMulRootZ 0).ValidOn 1 ∧
      ((∃ k, iPow k * X 0 ∈ PauliGroup.generatedBy
          ((identity 1).leftMulRootZ 0).cliffordFixedSpace) ↔
        (((identity 1).leftMulRootZ 0).image (PauliUnitary.x 0)).toPhased = X 0 ∨
          (((identity 1).leftMulRootZ 0).image (PauliUnitary.x 0)).toPhased = iPow 2 * X 0) := by
  have hvalid : ((identity 1).leftMulRootZ 0).ValidOn 1 := by decide
  exact ⟨hvalid, (cliffordFixedSpace_spec _ hvalid).2.2 (PauliUnitary.x 0) (by decide)⟩

end CliffordUnitary

end QdkEc
