import QdkEc.Paulimer.PauliGroup

/-!
# Rows of Pauli groups

This module reads the rows of the generator matrix of a Pauli group as Paulis.
Over a support that contains the qubits of a Pauli, its row determines its bits,
and sums of rows are products of Paulis up to phase.
-/

namespace QdkEc

open PhasedPauli Bits List

namespace PauliUnitary

theorem mem_support {p : PauliUnitary} {q : ℕ} :
    q ∈ p.support ↔ p.xBits.index q = true ∨ p.zBits.index q = true := by
  rw [support, Bits.mem_support, index_fromIndices, decide_eq_true_iff, mem_append,
    Bits.mem_support, Bits.mem_support]

theorem weight_eq_zero_iff {p : PauliUnitary} : p.weight = 0 ↔ p.xBits = 0 ∧ p.zBits = 0 := by
  rw [weight, length_eq_zero_iff, eq_nil_iff_forall_not_mem]
  constructor
  · intro h
    constructor <;> refine ext_index fun q => ?_ <;> have hq := h q <;>
      rw [mem_support] at hq <;> push Not at hq
    · simpa using hq.1
    · simpa using hq.2
  · rintro ⟨hx, hz⟩ q hq
    rw [mem_support, hx, hz] at hq
    simp at hq

end PauliUnitary

namespace PauliGroup

open AlignedBitMatrix

/-- The bit set of the qubits at the positions in a bit set. -/
def atPositions (support : List ℕ) (b : Bits) : Bits :=
  Bits.combine (fun j => Bits.unit (support.getD j 0)) b

/-- The `X` bits that a row stands for. -/
def decodeX (support : List ℕ) (row : Bits) : Bits :=
  atPositions support (Bits.low support.length row)

/-- The `Z` bits that a row stands for. -/
def decodeZ (support : List ℕ) (row : Bits) : Bits :=
  atPositions support (Bits.shiftDown support.length row)

/-- The row of two bit sets over a support. -/
def encode (support : List ℕ) (x z : Bits) : Bits :=
  Bits.fromIndices (x.support.map support.idxOf ++
    z.support.map fun q => support.length + support.idxOf q)

section Positions

variable {support : List ℕ}

theorem index_atPositions (hnodup : support.Nodup) {b : Bits} (hb : b.Below support.length)
    (q : ℕ) :
    (atPositions support b).index q = (decide (q ∈ support) && b.index (support.idxOf q)) := by
  have hsum : atPositions support b =
      Bits.combine (fun j => if j < support.length then unit (support.getD j 0) else 0) b :=
    combine_congr hb fun j hj => by rw [if_pos hj]
  rw [hsum, index_combine (r := if q ∈ support then unit (support.idxOf q) else 0)]
  · split_ifs with hq
    · rw [dot_unit_right, decide_eq_true hq, Bool.true_and]
    · rw [dot_zero_right, decide_eq_false hq, Bool.false_and]
  intro j
  rcases Nat.lt_or_ge j support.length with hj | hj
  · rw [if_pos hj, index_unit, getD_eq_getElem _ _ hj]
    split_ifs with hq
    · rw [index_unit]
      refine decide_eq_decide.mpr ⟨?_, ?_⟩
      · rintro rfl
        exact hnodup.idxOf_getElem j hj
      · rintro rfl
        exact getElem_idxOf hj
    · rw [index_zero, decide_eq_false]
      rintro rfl
      exact hq (getElem_mem hj)
  · rw [if_neg (by omega), index_zero]
    split_ifs with hq
    · have hlt := idxOf_lt_length_of_mem hq
      rw [index_unit, decide_eq_false (by omega)]
    · rw [index_zero]

variable {row : Bits}

theorem below_shiftDown {n : ℕ} (h : row.Below (2 * n)) : (shiftDown n row).Below n := by
  rw [below_iff]
  intro j hj
  rw [index_shiftDown, h.index_eq_false (by omega)]

theorem index_decode (hnodup : support.Nodup) (hrow : row.Below (2 * support.length))
    {j : ℕ} (hj : j < support.length) : (decodeX support row).index support[j] = row.index j ∧
      (decodeZ support row).index support[j] = row.index (support.length + j) := by
  rw [decodeX, decodeZ, index_atPositions hnodup (below_low _ _),
    index_atPositions hnodup (below_shiftDown hrow), hnodup.idxOf_getElem j hj,
    decide_eq_true (getElem_mem hj), Bool.true_and, Bool.true_and, index_low,
    decide_eq_true hj, Bool.true_and, index_shiftDown]
  exact ⟨rfl, rfl⟩

theorem mem_of_index_decode (hnodup : support.Nodup) (hrow : row.Below (2 * support.length)) {q : ℕ}
    (hq : (decodeX support row).index q = true ∨ (decodeZ support row).index q = true) :
    q ∈ support := by
  rw [decodeX, decodeZ, index_atPositions hnodup (below_low _ _),
    index_atPositions hnodup (below_shiftDown hrow), ← Bool.or_eq_true, ← Bool.and_or_distrib_left,
    Bool.and_eq_true, decide_eq_true_iff] at hq
  exact hq.1

theorem decodeX_add (a b : Bits) :
    decodeX support (a + b) = decodeX support a + decodeX support b := by
  rw [decodeX, low_add, atPositions, combine_add]
  rfl

theorem decodeZ_add (a b : Bits) :
    decodeZ support (a + b) = decodeZ support a + decodeZ support b := by
  have hshift : shiftDown support.length (a + b) =
      shiftDown support.length a + shiftDown support.length b := by
    refine ext_index fun j => ?_
    simp
  rw [decodeZ, hshift, atPositions, combine_add]
  rfl

/-- Reading the `X` bits of a row is additive. -/
def decodeXHom (support : List ℕ) : Bits →+ Bits where
  toFun := decodeX support
  map_zero' := by
    have h : decodeX support (0 + 0) = _ := decodeX_add 0 0
    rwa [add_self, add_self] at h
  map_add' := decodeX_add

/-- Reading the `Z` bits of a row is additive. -/
def decodeZHom (support : List ℕ) : Bits →+ Bits where
  toFun := decodeZ support
  map_zero' := by
    have h : decodeZ support (0 + 0) = _ := decodeZ_add 0 0
    rwa [add_self, add_self] at h
  map_add' := decodeZ_add

theorem decodeX_zero : decodeX support 0 = 0 :=
  map_zero (decodeXHom support)

theorem decodeZ_zero : decodeZ support 0 = 0 :=
  map_zero (decodeZHom support)

theorem decodeX_combine (g : ℕ → Bits) (t : Bits) :
    decodeX support (Bits.combine g t) = Bits.combine (fun i => decodeX support (g i)) t :=
  map_combine g (decodeXHom support) t

theorem decodeZ_combine (g : ℕ → Bits) (t : Bits) :
    decodeZ support (Bits.combine g t) = Bits.combine (fun i => decodeZ support (g i)) t :=
  map_combine g (decodeZHom support) t

theorem decode_injective (hnodup : support.Nodup) {a b : Bits} (ha : a.Below (2 * support.length))
    (hb : b.Below (2 * support.length)) (hx : decodeX support a = decodeX support b)
    (hz : decodeZ support a = decodeZ support b) : a = b := by
  have hread : ∀ {c d : Bits}, c.Below support.length → d.Below support.length →
      atPositions support c = atPositions support d → c = d := by
    intro c d hc hd heq
    refine ext_index fun j => ?_
    rcases Nat.lt_or_ge j support.length with hj | hj
    · have hindex := congrArg (index · support[j]) heq
      simp only [index_atPositions hnodup hc, index_atPositions hnodup hd, getElem_mem,
        hnodup.idxOf_getElem j hj, decide_true, Bool.true_and] at hindex
      exact hindex
    · rw [hc.index_eq_false hj, hd.index_eq_false hj]
  have hlow := hread (below_low _ a) (below_low _ b) hx
  have hhigh := hread (below_shiftDown ha) (below_shiftDown hb) hz
  refine ext_index fun j => ?_
  rcases Nat.lt_or_ge j support.length with hj | hj
  · have hindex := congrArg (index · j) hlow
    simpa [hj] using hindex
  · have hindex := congrArg (index · (j - support.length)) hhigh
    simpa [show support.length + (j - support.length) = j by omega] using hindex

theorem below_encode {x z : Bits} (hx : ∀ q, x.index q = true → q ∈ support)
    (hz : ∀ q, z.index q = true → q ∈ support) :
    (encode support x z).Below (2 * support.length) := by
  rw [below_iff]
  intro j hj
  rw [encode, index_fromIndices, decide_eq_false]
  rw [mem_append, mem_map, mem_map]
  rintro (⟨q, hq, rfl⟩ | ⟨q, hq, rfl⟩)
  · have := idxOf_lt_length_of_mem (hx q (Bits.mem_support.mp hq))
    omega
  · have := idxOf_lt_length_of_mem (hz q (Bits.mem_support.mp hq))
    omega

theorem decode_encode (hnodup : support.Nodup) {x z : Bits}
    (hx : ∀ q, x.index q = true → q ∈ support) (hz : ∀ q, z.index q = true → q ∈ support) :
    decodeX support (encode support x z) = x ∧ decodeZ support (encode support x z) = z := by
  have hidx : ∀ {q q' : ℕ}, q ∈ support → support.idxOf q' = support.idxOf q → q' = q := by
    intro q q' hq heq
    have hlt := idxOf_lt_length_of_mem hq
    rw [← getElem_idxOf hlt, ← getElem_idxOf (heq ▸ hlt : support.idxOf q' < _)]
    simp only [heq]
  have hlt : ∀ {q}, q ∈ support → support.idxOf q < support.length :=
    fun hq => idxOf_lt_length_of_mem hq
  constructor
  · refine ext_index fun q => ?_
    rw [decodeX, index_atPositions hnodup (below_low _ _)]
    by_cases hq : q ∈ support
    · rw [decide_eq_true hq, Bool.true_and, index_low, decide_eq_true (hlt hq), Bool.true_and,
        encode, index_fromIndices, Bool.eq_iff_iff, decide_eq_true_iff, mem_append,
        mem_map, mem_map]
      constructor
      · rintro (⟨q', hq', heq⟩ | ⟨q', _, heq⟩)
        · obtain rfl := hidx hq heq
          exact Bits.mem_support.mp hq'
        · have := hlt hq
          omega
      · exact fun hxq => Or.inl ⟨q, Bits.mem_support.mpr hxq, rfl⟩
    · rw [decide_eq_false hq, Bool.false_and]
      by_contra hset
      exact hq (hx q (by simpa using Ne.symm hset))
  · refine ext_index fun q => ?_
    rw [decodeZ, index_atPositions hnodup (below_shiftDown (below_encode hx hz))]
    by_cases hq : q ∈ support
    · rw [decide_eq_true hq, Bool.true_and, index_shiftDown, encode, index_fromIndices,
        Bool.eq_iff_iff, decide_eq_true_iff, mem_append, mem_map, mem_map]
      constructor
      · rintro (⟨q', hq', heq⟩ | ⟨q', hq', heq⟩)
        · have := hlt (hx q' (Bits.mem_support.mp hq'))
          omega
        · obtain rfl := hidx hq (by omega : support.idxOf q' = support.idxOf q)
          exact Bits.mem_support.mp hq'
      · exact fun hzq => Or.inr ⟨q, Bits.mem_support.mpr hzq, rfl⟩
    · rw [decide_eq_false hq, Bool.false_and]
      by_contra hset
      exact hq (hz q (by simpa using Ne.symm hset))

theorem asSparsePauli_bits (hnodup : support.Nodup)
    (hrow : row.Below (2 * support.length)) (phase : UInt8) :
    (asSparsePauli row phase support).xBits = decodeX support row ∧
      (asSparsePauli row phase support).zBits = decodeZ support row := by
  constructor
  · refine ext_index fun q => ?_
    rw [decodeX, index_atPositions hnodup (below_low _ _), asSparsePauli,
      index_fromIndices, Bool.eq_iff_iff, decide_eq_true_iff, Bool.and_eq_true,
      decide_eq_true_iff, index_low, Bool.and_eq_true, decide_eq_true_iff, mem_map]
    constructor
    · rintro ⟨j, hj, rfl⟩
      rw [mem_filter, decide_eq_true_iff, Bits.mem_support] at hj
      rw [getD_eq_getElem _ _ hj.2, hnodup.idxOf_getElem j hj.2]
      exact ⟨getElem_mem hj.2, hj.2, hj.1⟩
    · rintro ⟨hq, hlt, hset⟩
      refine ⟨support.idxOf q, mem_filter.mpr ⟨Bits.mem_support.mpr hset, by simpa using hlt⟩, ?_⟩
      rw [getD_eq_getElem _ _ hlt, getElem_idxOf hlt]
  · refine ext_index fun q => ?_
    rw [decodeZ, index_atPositions hnodup (below_shiftDown hrow), asSparsePauli,
      index_fromIndices, Bool.eq_iff_iff, decide_eq_true_iff, Bool.and_eq_true,
      decide_eq_true_iff, index_shiftDown, mem_map]
    constructor
    · rintro ⟨j, hj, rfl⟩
      rw [mem_filter, decide_eq_true_iff, Bits.mem_support] at hj
      have hlt : j - support.length < support.length := by
        have := hrow.lt_of_index hj.1
        omega
      rw [getD_eq_getElem _ _ hlt, hnodup.idxOf_getElem _ hlt,
        show support.length + (j - support.length) = j by omega]
      exact ⟨getElem_mem hlt, hj.1⟩
    · rintro ⟨hq, hset⟩
      have hlt := idxOf_lt_length_of_mem hq
      refine ⟨support.length + support.idxOf q,
        mem_filter.mpr ⟨Bits.mem_support.mpr hset, by simp⟩, ?_⟩
      rw [Nat.add_sub_cancel_left, getD_eq_getElem _ _ hlt, getElem_idxOf hlt]

end Positions

theorem get_setQubits (supportedBy : List ℕ) (rowIndex : ℕ) (offset : ℕ) (qubits : List ℕ)
    {m : AlignedBitMatrix} (hrow : rowIndex < m.rowCount) :
    ((setQubits supportedBy rowIndex offset qubits m).rowCount = m.rowCount ∧
      (setQubits supportedBy rowIndex offset qubits m).columnCount = m.columnCount) ∧
        ∀ i j, (setQubits supportedBy rowIndex offset qubits m).get i j =
          (m.get i j || decide (i = rowIndex ∧
            j ∈ qubits.map fun q => offset + supportedBy.idxOf q)) := by
  induction qubits generalizing m with
  | nil => exact ⟨⟨rfl, rfl⟩, fun i j => by simp [setQubits]⟩
  | cons q qubits ih =>
    obtain ⟨⟨hrows, hcolumns⟩, hget⟩ :=
      ih (m := m.set rowIndex (offset + supportedBy.idxOf q) true) (by simpa using hrow)
    refine ⟨⟨hrows, hcolumns⟩, fun i j => ?_⟩
    refine (hget i j).trans ?_
    rw [get_set hrow]
    by_cases hi : i = rowIndex
    · by_cases hj : j = offset + supportedBy.idxOf q
      · simp [hi, hj]
      · simp [hi, hj]
    · simp [hi]

theorem row_asBitmatrix (generators : List PauliUnitary) (supportedBy : List ℕ) :
    ((asBitmatrix generators supportedBy).rowCount = generators.length ∧
      (asBitmatrix generators supportedBy).columnCount = 2 * supportedBy.length) ∧
        ∀ i (hi : i < generators.length), (asBitmatrix generators supportedBy).row i =
          encode supportedBy generators[i].xBits generators[i].zBits := by
  have hfold : ∀ l : List PauliUnitary, l.length ≤ generators.length →
      let m := l.zipIdx.foldl (fun bitmatrix entry =>
        setQubits supportedBy entry.2 supportedBy.length entry.1.zBits.support
          (setQubits supportedBy entry.2 0 entry.1.xBits.support bitmatrix))
        (.zeros generators.length (2 * supportedBy.length))
      (m.rowCount = generators.length ∧ m.columnCount = 2 * supportedBy.length) ∧
        ∀ i j, m.get i j = ((l[i]?).elim false fun p =>
          (encode supportedBy p.xBits p.zBits).index j) := by
    intro l
    induction l using List.reverseRecOn with
    | nil =>
      intro _
      refine ⟨⟨rowCount_zeros _ _, rfl⟩, fun i j => ?_⟩
      simp [AlignedBitMatrix.get]
    | append_singleton l p ih =>
      intro hl
      rw [length_append, length_singleton] at hl
      obtain ⟨⟨hrows, hcolumns⟩, hget⟩ := ih (by omega)
      simp only [zipIdx_append, zipIdx_singleton, foldl_append, foldl_cons,
        foldl_nil, Nat.zero_add]
      set m := l.zipIdx.foldl (fun bitmatrix entry =>
        setQubits supportedBy entry.2 supportedBy.length entry.1.zBits.support
          (setQubits supportedBy entry.2 0 entry.1.xBits.support bitmatrix))
        (AlignedBitMatrix.zeros generators.length (2 * supportedBy.length)) with hm
      obtain ⟨⟨hrowsX, hcolumnsX⟩, hgetX⟩ := get_setQubits supportedBy l.length 0
        p.xBits.support (m := m) (by omega)
      obtain ⟨⟨hrowsZ, hcolumnsZ⟩, hgetZ⟩ := get_setQubits supportedBy l.length
        supportedBy.length p.zBits.support
        (m := setQubits supportedBy l.length 0 p.xBits.support m) (by omega)
      refine ⟨⟨by omega, by omega⟩, fun i j => ?_⟩
      rw [hgetZ, hgetX, hget]
      rcases Nat.lt_trichotomy i l.length with hi | rfl | hi
      · rw [getElem?_append_left hi]
        simp [Nat.ne_of_lt hi]
      · have happend : ∀ a b : List ℕ,
            (decide (j ∈ a) || decide (j ∈ b)) = decide (j ∈ a ++ b) := by
          intro a b
          rw [← Bool.decide_or]
          exact decide_eq_decide.mpr mem_append.symm
        simp [encode, happend]
      · rw [getElem?_eq_none (by omega), getElem?_eq_none (by simp; omega)]
        simp [Nat.ne_of_gt hi]
  obtain ⟨hcounts, hget⟩ := hfold generators (le_refl _)
  refine ⟨hcounts, fun i hi => ext_index fun j => ?_⟩
  have hentry := hget i j
  rw [getElem?_eq_getElem hi] at hentry
  exact hentry

theorem mem_supportOf {operators : List PauliUnitary} {q : ℕ} :
    q ∈ supportOf operators ↔ ∃ p ∈ operators, p.xBits.index q = true ∨ p.zBits.index q = true := by
  rw [supportOf, Bits.mem_support, index_fromIndices, decide_eq_true_iff, mem_flatMap]
  exact exists_congr fun p => and_congr_right fun _ => PauliUnitary.mem_support

theorem nodup_supportOf (operators : List PauliUnitary) : (supportOf operators).Nodup :=
  nodup_support _

/-- All operators act on the support only. -/
def Supported (support : List ℕ) (operators : List PauliUnitary) : Prop :=
  ∀ p ∈ operators, ∀ q, p.xBits.index q = true ∨ p.zBits.index q = true → q ∈ support

theorem supported_supportOf (operators : List PauliUnitary) :
    Supported (supportOf operators) operators :=
  fun p hp _ hq => mem_supportOf.mpr ⟨p, hp, hq⟩

section Matrix

variable
  {support : List ℕ} {operators : List PauliUnitary} (hsupported : Supported support operators)

include hsupported

theorem below_row_asBitmatrix (i : ℕ) :
    ((asBitmatrix operators support).row i).Below (asBitmatrix operators support).columnCount := by
  obtain ⟨⟨hrows, hcolumns⟩, hrow⟩ := row_asBitmatrix operators support
  rw [hcolumns]
  rcases Nat.lt_or_ge i operators.length with hi | hi
  · rw [hrow i hi]
    have hmem := getElem_mem hi
    exact below_encode (fun q hq => hsupported _ hmem q (Or.inl hq))
      fun q hq => hsupported _ hmem q (Or.inr hq)
  · rw [row_of_le (by omega)]
    exact below_zero _

theorem decode_row_asBitmatrix (hnodup : support.Nodup) (i : ℕ) :
    decodeX support ((asBitmatrix operators support).row i) =
        (operators.getD i .neutralElement).xBits ∧
      decodeZ support ((asBitmatrix operators support).row i) =
        (operators.getD i .neutralElement).zBits := by
  obtain ⟨⟨hrows, hcolumns⟩, hrow⟩ := row_asBitmatrix operators support
  rcases Nat.lt_or_ge i operators.length with hi | hi
  · rw [hrow i hi, getD_eq_getElem _ _ hi]
    have hmem := getElem_mem hi
    exact decode_encode hnodup (fun q hq => hsupported _ hmem q (Or.inl hq))
      fun q hq => hsupported _ hmem q (Or.inr hq)
  · rw [row_of_le (by omega), getD_eq_default _ _ hi]
    exact ⟨decodeX_zero, decodeZ_zero⟩

end Matrix

theorem toPhased_productOfSparse (elements : List PauliUnitary) (b : Bits) :
    (productOfSparse elements b).toPhased =
      orderedProd (fun i => (elements.getD i .neutralElement).toPhased) b := by
  have hfold : ∀ (l : List ℕ) (p : PauliUnitary),
      (l.foldl (fun result index => result.mulAssignRight (elements.getD index .neutralElement))
        p).toPhased =
          p.toPhased * (l.map fun i => (elements.getD i .neutralElement).toPhased).prod := by
    intro l
    induction l with
    | nil =>
      intro p
      exact (mul_one _).symm
    | cons i l ih =>
      intro p
      rw [foldl_cons, ih, PauliUnitary.toPhased_mulAssignRight, map_cons, prod_cons, mul_assoc]
  rw [productOfSparse, hfold, PauliUnitary.toPhased_neutralElement, one_mul]
  rfl

end PauliGroup

end QdkEc
