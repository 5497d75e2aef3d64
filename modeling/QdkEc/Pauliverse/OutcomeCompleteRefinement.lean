import QdkEc.Pauliverse.OutcomeCompleteSimulation

/-!
# Outcome-complete simulation refines the stabilizer machine

This module reads one branch off a state of `OutcomeCompleteSimulation` and
proves that every operation acts on all branches as the stabilizer machine acts
on each of them, as long as the requested capacities pass the assertion.
-/

namespace QdkEc

open PhasedPauli PauliUnitary AlignedBitMatrix Option Bits List CliffordUnitary StabilizerMachine

variable (matrix : AlignedBitMatrix)

theorem rowSum_cons (i : ℕ) (rowsToSum : List ℕ) :
    rowSum matrix (i :: rowsToSum) = matrix.row i + rowSum matrix rowsToSum := by
  have hfold : ∀ (l : List ℕ) (a : Bits),
      l.foldl (fun res rowId => res + matrix.row rowId) a = a + rowSum matrix l := by
    intro l
    induction l with
    | nil =>
      intro a
      simp [rowSum]
    | cons j l ih =>
      intro a
      have hcons : rowSum matrix (j :: l) = 0 + matrix.row j + rowSum matrix l :=
        ih (0 + matrix.row j)
      rw [List.foldl_cons, ih, hcons, zero_add, add_assoc]
  rw [rowSum, List.foldl_cons, hfold, zero_add]

theorem rowSum_singleton (i : ℕ) :
    rowSum matrix [i] = matrix.row i := by
  rw [rowSum_cons]
  exact add_zero _

theorem dot_rowSum (rowsToSum : List ℕ) (r : Bits) :
    Bits.dot (rowSum matrix rowsToSum) r =
      rowsToSum.foldr (fun i parity => Bits.dot (matrix.row i) r ^^ parity) false := by
  induction rowsToSum with
  | nil => exact dot_zero_left r
  | cons i rowsToSum ih => rw [rowSum_cons, dot_add_left, ih, foldr_cons]

theorem below_rowSum {matrix : AlignedBitMatrix} {n : ℕ} (h : ∀ i, (matrix.row i).Below n)
    (rowsToSum : List ℕ) : (rowSum matrix rowsToSum).Below n := by
  induction rowsToSum with
  | nil => exact below_zero n
  | cons i rowsToSum ih =>
    rw [rowSum_cons]
    exact (h i).add ih

namespace OutcomeCompleteSimulation

/-- The capacities requested for the next outcome pass the assertion. -/
def ReserveOk (c : OutcomeCompleteSimulation) (randomOutcome : Bool) : Prop :=
  c.newBranchBitCapacity randomOutcome ≤ c.newOutcomeCapacity

/-- The branch bits fit in the outcomes, now and after any growth to a power of two. -/
def CapacityFits (c : OutcomeCompleteSimulation) : Prop :=
  c.branchBitCapacity ≤ c.outcomeCapacity ∧
    (c.branchBitCapacity = c.outcomeCapacity ∨ ∃ k, c.outcomeCapacity = 2 ^ k)

theorem capacityFits_new (qubitCount : ℕ) : (new qubitCount).CapacityFits := by
  have hcapacity : (new qubitCount).branchBitCapacity = (new qubitCount).outcomeCapacity := by
    simp [new, withCapacity, branchBitCapacity, outcomeCapacity]
  exact ⟨hcapacity.le, Or.inl hcapacity⟩

theorem outcomeCapacity_le_newOutcomeCapacity (c : OutcomeCompleteSimulation) :
    c.outcomeCapacity ≤ c.newOutcomeCapacity := by
  have hpower := le_nextPowerOfTwo (c.outcomeCount + 1)
  unfold newOutcomeCapacity
  split_ifs <;> omega

variable {c : OutcomeCompleteSimulation}

theorem reserveOk_false_of_le
    (h : c.branchBitCapacity ≤ c.outcomeCapacity) : c.ReserveOk false := by
  have hkeep : c.newBranchBitCapacity false = c.branchBitCapacity := if_neg (by simp)
  exact h.trans c.outcomeCapacity_le_newOutcomeCapacity

theorem outcomeCount_lt_newOutcomeCapacity (c : OutcomeCompleteSimulation) :
    c.outcomeCount < c.newOutcomeCapacity := by
  have hpower := le_nextPowerOfTwo (c.outcomeCount + 1)
  unfold newOutcomeCapacity
  split_ifs <;> omega

theorem branchBitCapacity_le_newBranchBitCapacity (c : OutcomeCompleteSimulation)
    (randomOutcome : Bool) : c.branchBitCapacity ≤ c.newBranchBitCapacity randomOutcome := by
  have hpower := le_nextPowerOfTwo (c.branchBitCount + 1)
  unfold newBranchBitCapacity
  split_ifs <;> omega

theorem branchBitCount_lt_newBranchBitCapacity (c : OutcomeCompleteSimulation) :
    c.branchBitCount < c.newBranchBitCapacity true := by
  have hpower := le_nextPowerOfTwo (c.branchBitCount + 1)
  unfold newBranchBitCapacity
  split_ifs with hfull
  · omega
  · exact Nat.lt_of_not_le fun hle => hfull ⟨rfl, hle⟩

theorem CapacityFits.grow (h : c.CapacityFits)
    (hcount : c.branchBitCount ≤ c.outcomeCount) (randomOutcome : Bool) :
    c.ReserveOk randomOutcome ∧ (c.newBranchBitCapacity randomOutcome = c.newOutcomeCapacity ∨
        ∃ k, c.newOutcomeCapacity = 2 ^ k) := by
  obtain ⟨hle, hshape⟩ := h
  have hpower := le_nextPowerOfTwo (c.outcomeCount + 1)
  have hmono := nextPowerOfTwo_mono (Nat.add_le_add_right hcount 1)
  unfold ReserveOk newBranchBitCapacity newOutcomeCapacity
  by_cases hfull : c.outcomeCount ≥ c.outcomeCapacity
  · rw [if_pos hfull]
    refine ⟨?_, Or.inr (exists_nextPowerOfTwo_eq _)⟩
    split_ifs <;> omega
  · rw [if_neg hfull]
    by_cases hrandom : randomOutcome = true ∧ c.branchBitCount ≥ c.branchBitCapacity
    · rcases hshape with heq | ⟨k, hk⟩
      · omega
      · rw [if_pos hrandom]
        refine ⟨?_, Or.inr ⟨k, hk⟩⟩
        rw [hk]
        apply nextPowerOfTwo_le
        omega
    · rw [if_neg hrandom]
      exact ⟨hle, hshape⟩

/-- The stabilizers and outcomes of a branch. -/
def machine (c : OutcomeCompleteSimulation) (r : Bits) : StabilizerMachine where
  stabilizers := c.clifford.frame.stabilizers (c.signs r)
  outcomes := c.outcomeVector r
  introducesBranchBit := c.outcomeIntroducesBranchBit

@[simp]
theorem index_signs (c : OutcomeCompleteSimulation) (r : Bits) (i : ℕ) :
    (c.signs r).index i = Bits.dot (c.signMatrix.row i) r := by
  by_cases hi : i < c.signMatrix.rowCount
  · simp [signs, hi]
  · rw [row_of_le (by omega), dot_zero_left]
    simp [signs, hi]

theorem dot_rowSum_support (c : OutcomeCompleteSimulation) (z r : Bits) :
    Bits.dot (rowSum c.signMatrix z.support) r = Bits.dot z (c.signs r) := by
  have hfold : ∀ l : List ℕ, l.foldr (fun i parity => Bits.dot (c.signMatrix.row i) r ^^ parity)
      false = Bits.dot (ofList l) (c.signs r) := by
    intro l
    induction l with
    | nil => simp
    | cons i l ih => rw [foldr_cons, ih, ofList_cons, dot_add_left, dot_unit_left, index_signs]
  rw [dot_rowSum, hfold, ofList_support]

/-- The simulation is in a consistent state and uses `n` qubits. -/
structure Invariant (n : ℕ) (c : OutcomeCompleteSimulation) : Prop where
  qubitCount_eq : c.qubitCount = n
  encodes : c.clifford.Encodes n
  signRows : c.signMatrix.rowCount = c.clifford.numQubits
  signRow_below : ∀ i, (c.signMatrix.row i).Below c.branchBitCount
  signColumns : c.branchBitCount ≤ c.signMatrix.columnCount
  outcomeRow_below : ∀ i, (c.outcomeMatrix.row i).Below c.branchBitCount
  outcomeRow_zero : ∀ i, c.outcomeCount ≤ i → c.outcomeMatrix.row i = 0
  outcomeColumns : c.branchBitCount ≤ c.outcomeMatrix.columnCount
  outcomeRows : c.outcomeCount ≤ c.outcomeMatrix.rowCount
  shift_below : c.outcomeShift.Below c.outcomeCount
  branchBitCount_eq : c.branchBitCount = c.outcomeIntroducesBranchBit.count true

theorem invariant_withCapacity (qubitCount outcomeCount branchBitCount : ℕ) :
    (withCapacity qubitCount outcomeCount branchBitCount).Invariant qubitCount := by
  refine ⟨rfl, encodes_identity qubitCount, ?_, ?_, ?_, ?_, ?_, ?_, ?_, ?_, rfl⟩ <;>
    simp [withCapacity, OutcomeCompleteSimulation.outcomeCount]

variable {op : SimulationOp}

section Steps

variable {n : ℕ} {c : OutcomeCompleteSimulation} (h : c.Invariant n)

include h

theorem Invariant.branchBitCount_le : c.branchBitCount ≤ c.outcomeCount := by
  rw [h.branchBitCount_eq]
  exact count_le_length

theorem Invariant.branchBitCount_machine (r : Bits) :
    (c.machine r).branchBitCount = c.branchBitCount :=
  h.branchBitCount_eq.symm

theorem Invariant.ensureQubitCapacity (maxQubitId : Option ℕ) :
    ∃ c', c.ensureQubitCapacity maxQubitId = some c' ∧
      c'.Invariant (max n (qubitBound maxQubitId)) ∧ (∀ r, c'.machine r = c.machine r) ∧
        (∀ random, c'.ReserveOk random ↔ c.ReserveOk random) ∧
          (c'.CapacityFits ↔ c.CapacityFits) := by
  cases maxQubitId with
  | none =>
    refine ⟨c, rfl, ?_, fun _ => rfl, fun _ => Iff.rfl, Iff.rfl⟩
    simpa [qubitBound] using h
  | some id =>
    rcases Nat.lt_or_ge id c.clifford.numQubits with hid | hid
    · refine ⟨{ c with qubitCount := max c.qubitCount (id + 1) }, ?_, ?_, fun _ => rfl,
        fun _ => Iff.rfl, Iff.rfl⟩
      · simp [OutcomeCompleteSimulation.ensureQubitCapacity, qubitCapacity, hid]
      · refine { h with qubitCount_eq := ?_, encodes := ?_ }
        · simp [qubitBound, h.qubitCount_eq]
        · refine h.encodes.mono (le_max_left _ _) (max_le h.encodes.le ?_)
          simpa [qubitBound] using hid
    · have hpower := le_nextPowerOfTwo (id + 1)
      have hgrow : c.clifford.numQubits < nextPowerOfTwo (id + 1) := by omega
      obtain ⟨C', hresize, hcount, _⟩ := resize_of_lt h.encodes.frame hgrow
      have hle := h.encodes.le
      obtain ⟨hencodes', _, hframe⟩ := h.encodes.resize (n := max n (id + 1)) hgrow hresize
        (le_max_left _ _) (by omega)
      have hrows : c.signMatrix.rowCount ≤ nextPowerOfTwo (id + 1) := by
        rw [h.signRows]
        exact hgrow.le
      have hrow := row_resize c.signMatrix hrows c.signMatrix.columnCount
        (fun i => (h.signRow_below i).mono h.signColumns)
      have hcounts := counts_resize c.signMatrix hrows c.signMatrix.columnCount
      refine ⟨{ c with
        qubitCount := max c.qubitCount (id + 1)
        signMatrix := c.signMatrix.resize (nextPowerOfTwo (id + 1)) c.signMatrix.columnCount
        clifford := C' }, ?_, ?_, ?_, fun _ => Iff.rfl, Iff.rfl⟩
      · simp [OutcomeCompleteSimulation.ensureQubitCapacity, qubitCapacity, reserveQubits, hid,
          hgrow, hresize]
      · refine { h with
          qubitCount_eq := ?_
          encodes := by simpa [qubitBound] using hencodes'
          signRows := ?_
          signRow_below := ?_
          signColumns := ?_ }
        · simp [qubitBound, h.qubitCount_eq]
        · rw [hcounts.1, hcount]
        · intro i
          rw [hrow]
          exact h.signRow_below i
        · rw [hcounts.2]
          exact h.signColumns
      · intro r
        refine StabilizerMachine.ext ?_ rfl rfl
        simp only [machine, hframe]
        congr 1
        exact ext_index fun i => by rw [index_signs, index_signs, hrow]

theorem Invariant.ensureQubitCapacity_of_le {maxQubitId : Option ℕ}
    (hbound : qubitBound maxQubitId ≤ n) : c.ensureQubitCapacity maxQubitId = some c := by
  cases maxQubitId with
  | none => rfl
  | some id =>
    have hid : id + 1 ≤ n := hbound
    have hle := h.encodes.le
    have hcount : max c.qubitCount (id + 1) = c.qubitCount := by
      rw [h.qubitCount_eq]
      exact max_eq_left hid
    have hcapacity : ¬ id ≥ c.clifford.numQubits := by omega
    simp [OutcomeCompleteSimulation.ensureQubitCapacity, qubitCapacity, hcount, hcapacity]

theorem Invariant.unitaryInUse {op : CliffordOp} (hop : op.WellFormed n)
    (hbound : qubitBound op.maxSupport ≤ n) : ∃ C', c.unitary op = some { c with clifford := C' } ∧
      Invariant n { c with clifford := C' } ∧
        ∀ r, machine { c with clifford := C' } r = (c.machine r).applyMap op.conjugation := by
  obtain ⟨C', happly, hencodes, hfollows, hcount⟩ := h.encodes.apply hop hbound
  refine ⟨C', ?_, { h with encodes := hencodes, signRows := h.signRows.trans hcount.symm }, ?_⟩
  · simp [OutcomeCompleteSimulation.unitary, h.ensureQubitCapacity_of_le hbound,
      applyClifford, happly]
  · intro r
    refine StabilizerMachine.ext ?_ rfl rfl
    exact hfollows.stabilizers_eq h.encodes.frame h.encodes.fixesFrom

theorem Invariant.unitary {op : CliffordOp} (hop : op.WellFormed (qubitBound op.maxSupport)) :
    ∃ c', c.unitary op = some c' ∧ c'.Invariant (max n (qubitBound op.maxSupport)) ∧
      (∀ r, c'.machine r = (c.machine r).applyMap op.conjugation) ∧
        (c'.CapacityFits ↔ c.CapacityFits) := by
  obtain ⟨c₁, hensure, h₁, hmachine, _, hfits⟩ := h.ensureQubitCapacity op.maxSupport
  obtain ⟨C', hunitary, h₂, hmachine₂⟩ := h₁.unitaryInUse
    (hop.of_qubitBound_le (le_max_right n _)) (le_max_right n _)
  refine ⟨{ c₁ with clifford := C' }, ?_, h₂, fun r => ?_, hfits⟩
  · have hensure₁ := h₁.ensureQubitCapacity_of_le (le_max_right n (qubitBound op.maxSupport))
    simp only [OutcomeCompleteSimulation.unitary, hensure₁] at hunitary
    simp only [OutcomeCompleteSimulation.unitary, hensure]
    exact hunitary
  · rw [hmachine₂, hmachine]

omit h in
theorem signMatrix_xorSigns {rows : List ℕ} (hnodup : rows.Nodup)
    (hrows : ∀ row ∈ rows, row < c.signMatrix.rowCount) (branchBitsIndicator : Bits) :
    (c.xorSigns rows branchBitsIndicator).signMatrix.rowCount = c.signMatrix.rowCount ∧
      (c.xorSigns rows branchBitsIndicator).signMatrix.columnCount = c.signMatrix.columnCount ∧
        ∀ i, (c.xorSigns rows branchBitsIndicator).signMatrix.row i =
          if i ∈ rows then c.signMatrix.row i + branchBitsIndicator else c.signMatrix.row i := by
  unfold xorSigns
  generalize c.signMatrix = m at hrows ⊢
  induction rows generalizing m with
  | nil => simp
  | cons row rows ih =>
    obtain ⟨hnot, hnodup⟩ := nodup_cons.mp hnodup
    have hrow : row < m.rowCount := hrows row (by simp)
    obtain ⟨hrowCount, hcolumnCount, hget⟩ := ih hnodup
      (m.setRow row (m.row row + branchBitsIndicator))
      (fun row' hrow' => hrows row' (by simp [hrow']))
    refine ⟨hrowCount, hcolumnCount, fun i => ?_⟩
    rw [List.foldl_cons, hget, row_setRow hrow]
    rcases eq_or_ne i row with rfl | hi
    · simp [hnot]
    · simp [hi]

theorem Invariant.xorSigns {x branchBitsIndicator : Bits} (hx : x.Below n)
    (hindicator : branchBitsIndicator.Below c.branchBitCount) :
    (c.xorSigns x.support branchBitsIndicator).Invariant n ∧
      ∀ r, (c.xorSigns x.support branchBitsIndicator).signs r =
        c.signs r + if Bits.dot branchBitsIndicator r then x else 0 := by
  obtain ⟨hrowCount, hcolumnCount, hrow⟩ := signMatrix_xorSigns x.nodup_support
    (fun row hrow => by
      rw [h.signRows]
      exact lt_of_lt_of_le (hx.lt_of_index (mem_support.mp hrow)) h.encodes.le)
    branchBitsIndicator
  refine ⟨{ h with
    signRows := hrowCount.trans h.signRows
    signRow_below := ?_
    signColumns := ?_ }, ?_⟩
  · intro i
    rw [hrow]
    split_ifs
    · exact (h.signRow_below i).add hindicator
    · exact h.signRow_below i
  · rw [hcolumnCount]
    exact h.signColumns
  · intro r
    refine ext_index fun i => ?_
    rw [index_signs, hrow, index_add, index_signs]
    cases hdot : Bits.dot branchBitsIndicator r <;> cases hi : x.index i <;>
      simp [hdot, hi]

theorem Invariant.applyPauliConditionedOnBranchBits {pauli : PauliUnitary} (hp : pauli.Below n)
    {branchBitsIndicator : Bits} (hindicator : branchBitsIndicator.Below c.branchBitCount) :
    (c.applyPauliConditionedOnBranchBits pauli branchBitsIndicator).Invariant n ∧
      ∀ r, (c.applyPauliConditionedOnBranchBits pauli branchBitsIndicator).machine r =
        if Bits.dot branchBitsIndicator r then (c.machine r).applyMap (conjugate pauli.toPhased)
        else c.machine r := by
  have hpre : (c.clifford.preimage pauli).toPhased = c.clifford.frame.lift pauli.toPhased :=
    toPhased_preimage (h.encodes.below hp)
  have hx : (c.clifford.preimage pauli).xBits.Below n := by
    have hbelow := (h.encodes.frame.below_lift_iff h.encodes.fixesFrom).mpr hp
    rw [← hpre] at hbelow
    exact hbelow.1
  obtain ⟨hinvariant, hsigns⟩ := h.xorSigns hx hindicator
  refine ⟨hinvariant, fun r => ?_⟩
  have hstabilizers := h.encodes.frame.stabilizers_add_xBits (c.signs r) pauli.toPhased
  rw [← hpre, toPhased_xBits] at hstabilizers
  have hmachine : (c.applyPauliConditionedOnBranchBits pauli branchBitsIndicator).machine r =
      { c.machine r with
        stabilizers := c.clifford.frame.stabilizers (c.signs r +
          if Bits.dot branchBitsIndicator r then (c.clifford.preimage pauli).xBits else 0) } :=
    StabilizerMachine.ext (congrArg c.clifford.frame.stabilizers (hsigns r)) rfl rfl
  rw [hmachine]
  split_ifs
  · rw [hstabilizers]
    rfl
  · rw [add_zero]
    rfl

omit h in
theorem ensureOutcomeCapacity_eq_none_iff (randomOutcome : Bool) :
    c.ensureOutcomeCapacity randomOutcome = none ↔ ¬ c.ReserveOk randomOutcome := by
  unfold ensureOutcomeCapacity reserveOutcomes ReserveOk
  split_ifs with hle
  · simp [hle]
  · simpa using hle

variable {randomOutcome : Bool}

/-- Making room for the next outcome changes no branch. -/
theorem Invariant.ensureOutcomeCapacity (hok : c.ReserveOk randomOutcome) :
    ∃ c', c.ensureOutcomeCapacity randomOutcome = some c' ∧ c'.Invariant n ∧
      (∀ r, c'.machine r = c.machine r) ∧ c'.clifford = c.clifford ∧
        (∀ i, c'.signMatrix.row i = c.signMatrix.row i) ∧
          (c'.outcomeCapacity = c.newOutcomeCapacity ∧
            c'.branchBitCapacity = c.newBranchBitCapacity randomOutcome ∧
              c'.signMatrix.columnCount = c.newBranchBitCapacity randomOutcome) ∧
            c'.branchBitCount = c.branchBitCount := by
  have hrowsLe := c.outcomeCapacity_le_newOutcomeCapacity
  have hcolumnsLe := c.branchBitCapacity_le_newBranchBitCapacity randomOutcome
  have hensure : c.ensureOutcomeCapacity randomOutcome = some { c with
      outcomeMatrix := c.outcomeMatrix.resize c.newOutcomeCapacity
        (c.newBranchBitCapacity randomOutcome)
      signMatrix := c.signMatrix.resize c.signMatrix.rowCount
        (c.newBranchBitCapacity randomOutcome) } := by
    unfold OutcomeCompleteSimulation.ensureOutcomeCapacity reserveOutcomes
    rw [if_pos (show c.newOutcomeCapacity ≥ _ from hok), max_eq_left hrowsLe,
      max_eq_left hcolumnsLe]
  have hsignRow := row_resize c.signMatrix le_rfl
    (c.newBranchBitCapacity randomOutcome) (fun i => (h.signRow_below i).mono h.signColumns)
  have hsignCounts := counts_resize c.signMatrix le_rfl
    (c.newBranchBitCapacity randomOutcome)
  have houtcomeRow := row_resize c.outcomeMatrix hrowsLe
    (c.newBranchBitCapacity randomOutcome) (fun i => (h.outcomeRow_below i).mono h.outcomeColumns)
  have houtcomeCounts := counts_resize c.outcomeMatrix hrowsLe
    (c.newBranchBitCapacity randomOutcome)
  have hcolumns : c.branchBitCount ≤ c.newBranchBitCapacity randomOutcome :=
    h.outcomeColumns.trans hcolumnsLe
  refine ⟨_, hensure, ?_, fun r => ?_, rfl, hsignRow, ⟨houtcomeCounts.1, houtcomeCounts.2,
    hsignCounts.2⟩, rfl⟩
  · refine { h with
      signRows := hsignCounts.1.trans h.signRows
      signRow_below := ?_
      signColumns := ?_
      outcomeRow_below := ?_
      outcomeRow_zero := ?_
      outcomeColumns := ?_
      outcomeRows := ?_ }
    · intro i
      rw [hsignRow]
      exact h.signRow_below i
    · rw [hsignCounts.2]
      exact hcolumns
    · intro i
      rw [houtcomeRow]
      exact h.outcomeRow_below i
    · intro i hi
      rw [houtcomeRow]
      exact h.outcomeRow_zero i hi
    · rw [houtcomeCounts.2]
      exact hcolumns
    · rw [houtcomeCounts.1]
      exact h.outcomeRows.trans hrowsLe
  · refine StabilizerMachine.ext ?_ ?_ rfl
    · refine congrArg c.clifford.frame.stabilizers (ext_index fun i => ?_)
      rw [index_signs, index_signs, hsignRow]
    · simp only [machine, outcomeVector, houtcomeRow]
      rfl

/-- Append an outcome with the given row and shift vector. -/
def recordOutcome (c : OutcomeCompleteSimulation) (row shift : Bits) (random : Bool) :
    OutcomeCompleteSimulation :=
  { c with
    outcomeMatrix := c.outcomeMatrix.setRow c.outcomeCount row
    outcomeShift := shift
    outcomeIntroducesBranchBit := c.outcomeIntroducesBranchBit ++ [random]
    branchBitCount := c.branchBitCount + if random then 1 else 0 }

theorem Invariant.recordOutcome (row shift : Bits) (random : Bool)
    (hroom : c.outcomeCount < c.outcomeMatrix.rowCount)
    (hrow : row.Below (c.branchBitCount + if random then 1 else 0))
    (hsignColumns : (c.branchBitCount + if random then 1 else 0) ≤ c.signMatrix.columnCount)
    (houtcomeColumns : (c.branchBitCount + if random then 1 else 0) ≤ c.outcomeMatrix.columnCount)
    (hshift : ∀ i, i ≠ c.outcomeCount → shift.index i = c.outcomeShift.index i) :
    (c.recordOutcome row shift random).Invariant n ∧
      ∀ r, (c.recordOutcome row shift random).machine r =
        (c.machine r).record (Bits.dot row r ^^ shift.index c.outcomeCount) random := by
  have hget := row_setRow hroom row
  have hmore := Nat.le_add_right c.branchBitCount (if random then 1 else 0)
  have hcount : (c.recordOutcome row shift random).outcomeCount = c.outcomeCount + 1 := by
    simp [OutcomeCompleteSimulation.recordOutcome, outcomeCount]
  refine ⟨⟨h.qubitCount_eq, h.encodes, h.signRows, fun i => (h.signRow_below i).mono hmore,
    hsignColumns, fun i => ?_, fun i hi => ?_, houtcomeColumns, ?_, ?_, ?_⟩, fun r => ?_⟩
  · refine (hget i).symm ▸ ?_
    rcases eq_or_ne i c.outcomeCount with rfl | hi
    · rw [if_pos rfl]
      exact hrow
    · rw [if_neg hi]
      exact (h.outcomeRow_below i).mono hmore
  · refine (hget i).trans ?_
    rw [if_neg (by omega)]
    exact h.outcomeRow_zero i (by omega)
  · rw [hcount]
    exact hroom
  · rw [hcount, below_iff]
    intro i hi
    simp only [OutcomeCompleteSimulation.recordOutcome]
    rw [hshift i (by omega)]
    exact h.shift_below.index_eq_false (by omega)
  · simp only [OutcomeCompleteSimulation.recordOutcome, h.branchBitCount_eq, count_append]
    cases random <;> rfl
  · refine StabilizerMachine.ext rfl ?_ rfl
    simp only [machine, outcomeVector, hcount, StabilizerMachine.record, range_succ,
      map_append, map_singleton]
    congr 1
    · refine map_congr_left fun i hi => ?_
      have hlt : i ≠ c.outcomeCount := (mem_range.mp hi).ne
      simp only [OutcomeCompleteSimulation.recordOutcome, hget]
      rw [if_neg hlt, hshift i hlt]
    · simp [OutcomeCompleteSimulation.recordOutcome, hget]

omit h in
theorem reserveOk_of_grown (hok : c.ReserveOk randomOutcome)
    {c' : OutcomeCompleteSimulation} (houtcomes : c'.outcomeCapacity = c.newOutcomeCapacity)
    (hbranchBits : c'.branchBitCapacity = c.newBranchBitCapacity randomOutcome) :
    c'.ReserveOk false := by
  apply reserveOk_false_of_le
  rw [houtcomes, hbranchBits]
  exact hok

theorem Invariant.capacityFits_of_grown (hfits : c.CapacityFits)
    {c' : OutcomeCompleteSimulation} (houtcomes : c'.outcomeCapacity = c.newOutcomeCapacity)
    (hbranchBits : c'.branchBitCapacity = c.newBranchBitCapacity randomOutcome) :
    c'.CapacityFits := by
  obtain ⟨hok, hshape⟩ := hfits.grow h.branchBitCount_le randomOutcome
  rw [CapacityFits, houtcomes, hbranchBits]
  exact ⟨hok, hshape⟩

theorem Invariant.allocateBranchBit (hok : c.ReserveOk true) :
    ∃ c', c.allocateBranchBit = some (c', ⟨c.outcomeCount, c.branchBitCount⟩) ∧
      c'.Invariant n ∧ c'.clifford = c.clifford ∧ (∀ i, c'.signMatrix.row i = c.signMatrix.row i) ∧
          c'.branchBitCount = c.branchBitCount + 1 ∧
            (∀ r, c'.machine r = (c.machine r).allocateRandomBit r.index) ∧
              (c.CapacityFits → c'.CapacityFits) ∧ c'.ReserveOk false := by
  obtain ⟨c₁, hensure, h₁, hmachine, hclifford, hsigns, ⟨hrows, hcolumns, hsignColumns⟩,
    hbits⟩ := h.ensureOutcomeCapacity hok
  have hcount : c₁.outcomeCount = c.outcomeCount :=
    congrArg (·.introducesBranchBit.length) (hmachine 0)
  have hroom := c.outcomeCount_lt_newOutcomeCapacity
  have hroom' := c.branchBitCount_lt_newBranchBitCapacity
  have hzero : c₁.outcomeMatrix.row c₁.outcomeCount = 0 := h₁.outcomeRow_zero _ le_rfl
  have hassign : assignIndex (c₁.outcomeMatrix.row c₁.outcomeCount)
      c₁.branchBitCount true = unit c₁.branchBitCount := by
    rw [hzero, assignIndex, if_neg (by simp), add_zero]
  obtain ⟨h₂, hmachine₂⟩ := h₁.recordOutcome (unit c₁.branchBitCount) c₁.outcomeShift true
    (by rw [hcount]; exact hroom.trans_eq hrows.symm)
    (by simp [below_unit])
    (by rw [hbits, hsignColumns]; exact hroom')
    (by rw [hbits]; exact hroom'.trans_eq hcolumns.symm)
    (fun _ _ => rfl)
  refine ⟨c₁.recordOutcome (unit c₁.branchBitCount) c₁.outcomeShift true, ?_, h₂, hclifford,
    hsigns, congrArg (· + 1) hbits, fun r => ?_, fun hfits => ?_,
    reserveOk_of_grown hok hrows hcolumns⟩
  · simp only [OutcomeCompleteSimulation.allocateBranchBit, hensure, bind_eq_bind,
      bind_some, AlignedBitMatrix.set, hassign]
    rw [← hcount, ← hbits]
    rfl
  · have hshift : c₁.outcomeShift.index c₁.outcomeCount = false :=
      h₁.shift_below.index_eq_false le_rfl
    rw [hmachine₂, hmachine, dot_unit_left, hshift, Bool.xor_false, hbits,
      allocateRandomBit, h.branchBitCount_machine]
  · exact h.capacityFits_of_grown hfits hrows hcolumns

theorem Invariant.outcomeParity {ids : List ℕ} (hids : ∀ id ∈ ids, id < c.outcomeCount) :
    ∃ control, OutcomeParity.new c.outcomeMatrix c.outcomeShift ids = some control ∧
      control.branchMask.Below c.branchBitCount ∧ ∀ r, totalParity (c.outcomeVector r) ids =
          (control.constant ^^ Bits.dot control.branchMask r) := by
  have hall : ids.all (· < c.outcomeMatrix.rowCount) = true := by
    rw [List.all_eq_true]
    intro id hid
    exact decide_eq_true ((hids id hid).trans_le h.outcomeRows)
  refine ⟨_, if_pos hall, below_rowSum h.outcomeRow_below ids, fun r => ?_⟩
  have hvector : ∀ id, id < c.outcomeCount → (c.outcomeVector r).getD id false =
      (Bits.dot (c.outcomeMatrix.row id) r ^^ c.outcomeShift.index id) := by
    intro id hid
    simp [outcomeVector, getD_eq_getElem?_getD, hid]
  have hfold : ∀ parity shift, ids.foldl (fun parity id =>
      parity ^^ (c.outcomeVector r).getD id false) (parity ^^ shift) =
        (ids.foldl (fun parity outcome => parity ^^ c.outcomeShift.index outcome) shift ^^
          (parity ^^ Bits.dot (rowSum c.outcomeMatrix ids) r)) := by
    induction ids with
    | nil =>
      intro parity shift
      simp [rowSum, Bool.xor_comm]
    | cons id ids ih =>
      intro parity shift
      have hshuffle : ((parity ^^ shift) ^^ (c.outcomeVector r).getD id false) =
          ((parity ^^ Bits.dot (c.outcomeMatrix.row id) r) ^^
            (shift ^^ c.outcomeShift.index id)) := by
        rw [hvector id (hids id (by simp))]
        simp only [Bool.xor_assoc, Bool.xor_left_comm]
      rw [List.foldl_cons, List.foldl_cons, hshuffle,
        ih (fun id' hid' => hids id' (by simp [hid'])) (by
          rw [List.all_eq_true] at hall ⊢
          exact fun id' hid' => hall id' (by simp [hid'])), rowSum_cons, dot_add_left,
        Bool.xor_assoc parity]
  have hstart := hfold false false
  rwa [Bool.false_xor, Bool.false_xor] at hstart

theorem Invariant.conditionalPauli (observable : PauliUnitary) {ids : List ℕ}
    (hids : ∀ id ∈ ids, id < c.outcomeCount) (parity : Bool) :
    ∃ c', c.conditionalPauli observable ids parity = some c' ∧
      c'.Invariant (max n (qubitBound observable.maxSupport)) ∧
        (∀ r, c'.machine r = (c.machine r).conditionalPauli observable.toPhased ids parity) ∧
          (c.CapacityFits → c'.CapacityFits) := by
  obtain ⟨c₁, hensure, h₁, hmachine, _, hfits⟩ := h.ensureQubitCapacity observable.maxSupport
  have hbound := le_max_right n (qubitBound observable.maxSupport)
  have hp : observable.Below (max n (qubitBound observable.maxSupport)) :=
    below_iff_maxSupport.mpr (qubitBound_le_iff.mp hbound)
  have hcount : c₁.outcomeCount = c.outcomeCount :=
    congrArg (·.introducesBranchBit.length) (hmachine 0)
  obtain ⟨control, hcontrol, hmask, hparity⟩ := h₁.outcomeParity
    (fun id hid => (hids id hid).trans_eq hcount.symm)
  simp only [OutcomeCompleteSimulation.conditionalPauli, hensure, bind_eq_bind,
    bind_some, hcontrol, ← hmachine, StabilizerMachine.conditionalPauli]
  have htotal : ∀ r, totalParity (c₁.machine r).outcomes ids =
      (control.constant ^^ Bits.dot control.branchMask r) := hparity
  rcases eq_or_ne control.constant parity with hconstant | hconstant
  · have hwf : (CliffordOp.leftMulPauli observable).WellFormed
        (qubitBound (CliffordOp.leftMulPauli observable).maxSupport) :=
      below_iff_maxSupport.mpr (qubitBound_le_iff.mp le_rfl)
    obtain ⟨c₂, hunitary, h₂, hmachine₂, hfits₂⟩ := h₁.unitary hwf
    have hmax : max (max n (qubitBound observable.maxSupport))
        (qubitBound (CliffordOp.leftMulPauli observable).maxSupport) =
          max n (qubitBound observable.maxSupport) := max_eq_left hbound
    rw [hmax] at h₂
    have hcount₂ : c₂.branchBitCount = c₁.branchBitCount := by
      rw [← h₂.branchBitCount_machine 0, ← h₁.branchBitCount_machine 0, hmachine₂]
      rfl
    obtain ⟨h₃, hmachine₃⟩ := h₂.applyPauliConditionedOnBranchBits hp
      (by rw [hcount₂]; exact hmask)
    refine ⟨_, ?_, h₃, fun r => ?_, fun hfit => hfits₂.mpr (hfits.mpr hfit)⟩
    · simp [hconstant, hunitary]
    · rw [hmachine₃, hmachine₂, htotal, hconstant]
      cases hdot : Bits.dot control.branchMask r with
      | false => simp [CliffordOp.conjugation]
      | true =>
        -- both corrections apply and cancel
        have htwice : ((c₁.machine r).applyMap (conjugate observable.toPhased)).applyMap
            (conjugate observable.toPhased) = c₁.machine r := by
          refine StabilizerMachine.ext ?_ rfl rfl
          simp only [applyMap, Set.image_image, conjugate_conjugate, Set.image_id']
        simpa [CliffordOp.conjugation] using htwice
  · obtain ⟨h₃, hmachine₃⟩ := h₁.applyPauliConditionedOnBranchBits hp hmask
    refine ⟨_, ?_, h₃, fun r => ?_, hfits.mpr⟩
    · simp [hconstant]
    · rw [hmachine₃, htotal]
      have hodd : ((control.constant ^^ Bits.dot control.branchMask r) = parity) =
          (Bits.dot control.branchMask r = true) := by
        revert hconstant
        cases control.constant <;> cases Bits.dot control.branchMask r <;> cases parity <;> simp
      simp only [hodd]

variable {observable : PauliUnitary}

theorem Invariant.measureDeterministic (hp : observable.Below n)
    (hp2 : observable.toPhased.OrderTwo)
    (hnone : (c.clifford.assignCliffordPreimage observable).xBits.support.head? = none)
    (hok : c.ReserveOk false) :
    ∃ c', c.measureDeterministic (c.clifford.assignCliffordPreimage observable) = some c' ∧
      c'.Invariant n ∧ (∀ r, c'.machine r = (c.machine r).measure r.index observable.toPhased) ∧
        (c.CapacityFits → c'.CapacityFits) ∧ c'.ReserveOk false := by
  set preimage := c.clifford.assignCliffordPreimage observable with hpreimage
  obtain ⟨c₁, hensure, h₁, hmachine, hclifford, hsigns, ⟨hrows, hcolumns, hsignColumns⟩,
    hbits⟩ := h.ensureOutcomeCapacity hok
  have hcount : c₁.outcomeCount = c.outcomeCount :=
    congrArg (·.introducesBranchBit.length) (hmachine 0)
  have hfresh : c₁.outcomeShift.index c₁.outcomeCount = false :=
    h₁.shift_below.index_eq_false le_rfl
  set sign := PauliUnitary.phaseValue preimage.xzPhaseExp == 2 with hsign
  set shift := if sign then assignIndex c₁.outcomeShift c₁.outcomeCount true
    else c₁.outcomeShift with hshift
  have hentry : ∀ i, shift.index i =
      if i = c₁.outcomeCount then sign else c₁.outcomeShift.index i := by
    intro i
    rcases eq_or_ne i c₁.outcomeCount with rfl | hi
    · cases hcase : sign <;> simp [hshift, hcase, hfresh]
    · cases hcase : sign <;> simp [hshift, hcase, hi, hi.symm]
  obtain ⟨h₂, hmachine₂⟩ := h₁.recordOutcome (rowSum c₁.signMatrix preimage.zBits.support) shift
    false (by rw [hcount]; exact c.outcomeCount_lt_newOutcomeCapacity.trans_eq hrows.symm)
    (below_rowSum h₁.signRow_below _) h₁.signColumns h₁.outcomeColumns
    (fun i hi => by rw [hentry, if_neg hi])
  refine ⟨c₁.recordOutcome (rowSum c₁.signMatrix preimage.zBits.support) shift false, ?_, h₂,
    fun r => ?_, fun hfits => h.capacityFits_of_grown hfits hrows hcolumns,
    reserveOk_of_grown hok hrows hcolumns⟩
  · simp only [OutcomeCompleteSimulation.measureDeterministic, hensure, bind_eq_bind, bind_some]
    rfl
  · have hunique := h₁.encodes.sign_mul_mem_iff hp hp2 (c₁.signs r)
    rw [hclifford, ← hpreimage, ← dot_rowSum_support, ← hsign, Bool.xor_comm] at hunique
    rw [hmachine₂, ← hmachine, hentry, if_pos rfl]
    refine (measure_of_determined r.index fun b => ?_).symm
    rw [← hunique hnone, ← hclifford]
    rfl

omit h in
theorem indicator_assignIndex {known : Bits} {k : ℕ} (hknown : known.Below k) :
    (AlignedBitMatrix.assignIndex known k true).Below (k + 1) ∧
      ∀ r, Bits.dot (AlignedBitMatrix.assignIndex known k true) r =
        (r.index k ^^ Bits.dot known r) := by
  have hassign : AlignedBitMatrix.assignIndex known k true = Bits.unit k + known := by
    rw [AlignedBitMatrix.assignIndex, hknown.index_eq_false le_rfl]
    rfl
  rw [hassign]
  refine ⟨(below_unit.mpr (Nat.lt_succ_self k)).add (hknown.mono (Nat.le_succ k)), fun r => ?_⟩
  rw [dot_add_left, dot_unit_left]

theorem Invariant.measureRandom (hp : observable.Below n)
    (hp2 : observable.toPhased.OrderTwo) {pivot : ℕ}
    (hpivot : (c.clifford.assignCliffordPreimage observable).xBits.support.head? = some pivot)
    (hok : c.ReserveOk true) :
    ∃ c', c.measureRandom observable (c.clifford.assignCliffordPreimage observable) pivot =
        some c' ∧
      c'.Invariant n ∧ (∀ r, c'.machine r = (c.machine r).measure r.index observable.toPhased) ∧
        (c.CapacityFits → c'.CapacityFits) ∧ c'.ReserveOk false := by
  obtain ⟨c₁, hallocate, h₁, hclifford, hsigns, hbits, hmachine, hfits, hroom⟩ :=
    h.allocateBranchBit hok
  have hpre := h.encodes.toPhased_preimage hp
  have hx : (c.clifford.assignCliffordPreimage observable).xBits.Below n := by
    have hbelow := (h.encodes.frame.below_lift_iff h.encodes.fixesFrom).mpr hp
    rw [← hpre] at hbelow
    exact hbelow.1
  obtain ⟨hindicator, hdot⟩ := indicator_assignIndex (h.signRow_below pivot)
  rw [← hbits] at hindicator
  obtain ⟨h₂, hsigns₂⟩ := h₁.xorSigns hx hindicator
  obtain ⟨hencodes, hfollows⟩ := h.encodes.updateEncoder hp hpivot hp2 false
  refine ⟨{ c₁.xorSigns (c.clifford.assignCliffordPreimage observable).xBits.support
      (assignIndex (c.signMatrix.row pivot) c.branchBitCount true) with
    clifford := c.clifford.updateEncoderForRandomOutcome observable
      (c.clifford.assignCliffordPreimage observable) pivot false }, ?_, ?_, fun r => ?_, hfits,
        hroom⟩
  · have hcliffordSigns : ∀ rows indicator, (c₁.xorSigns rows indicator).clifford = c.clifford :=
      fun _ _ => hclifford
    simp only [OutcomeCompleteSimulation.measureRandom, hallocate, bind_eq_bind,
      bind_some, rowSum_singleton, hsigns, hcliffordSigns]
  · refine { h₂ with encodes := hencodes, signRows := ?_ }
    refine h₂.signRows.trans (Eq.trans ?_
      (numQubits_updateEncoderForRandomOutcome _ _ _ _ _).symm)
    exact congrArg CliffordUnitary.numQubits hclifford
  · have hnot : ¬ Determined (c.machine r).stabilizers observable.toPhased := by
      intro hd
      rw [(h.encodes.determined_iff hp hp2 (c.signs r)).mp hd] at hpivot
      cases hpivot
    have hanti := h.encodes.anti_imageZ_pivot hp hpivot
    have hsame : c₁.signs r = c.signs r :=
      ext_index fun i => by rw [index_signs, index_signs, hsigns]
    have hmeasured := hfollows.stabilizers_measured hanti h.encodes.frame h.encodes.fixesFrom hp2
      (h.encodes.orderTwo_imageZ_pivot hp hpivot) (h.encodes.imageZ_pivot_mem hp hpivot (c.signs r))
      (r.index c.branchBitCount ^^ (c.signs r).index pivot)
    rw [hfollows.xBits_lift_quarter hanti hp2, ← hpre, toPhased_xBits, Bool.xor_assoc,
      Bool.xor_self, Bool.xor_false] at hmeasured
    rw [measure_of_not_determined r.index hnot, ← hmachine, h.branchBitCount_machine]
    refine StabilizerMachine.ext ?_ rfl rfl
    refine Eq.trans (congrArg (GeneratorFrame.stabilizers _) ?_) hmeasured
    refine (hsigns₂ r).trans ?_
    rw [hdot, hsame, index_signs]

/-- The capacities requested by a measurement pass the assertion. -/
def MeasureOk (c : OutcomeCompleteSimulation) (P : PhasedPauli) : Prop :=
  (Determined (c.machine 0).stabilizers P → c.ReserveOk false) ∧
    (¬ Determined (c.machine 0).stabilizers P → c.ReserveOk true)

/-- A measurement is one in every branch. -/
theorem Invariant.measure (hp2 : observable.toPhased.OrderTwo)
    (hmeasureOk : c.MeasureOk observable.toPhased) : ∃ c', c.measure observable = some c' ∧
      c'.Invariant (max n (qubitBound observable.maxSupport)) ∧
        (∀ r, c'.machine r = (c.machine r).measure r.index observable.toPhased) ∧
          (c.CapacityFits → c'.CapacityFits) ∧ c'.ReserveOk false := by
  obtain ⟨c₁, hensure, h₁, hmachine, hok, hfits⟩ := h.ensureQubitCapacity observable.maxSupport
  have hp : observable.Below (max n (qubitBound observable.maxSupport)) :=
    below_iff_maxSupport.mpr (qubitBound_le_iff.mp (le_max_right _ _))
  have hiff := h₁.encodes.determined_iff hp hp2 (c₁.signs 0)
  obtain ⟨hdetermined, hrandom⟩ := hmeasureOk
  rw [← hmachine] at hdetermined hrandom
  simp only [OutcomeCompleteSimulation.measure, hensure, bind_eq_bind, bind_some]
  cases hpivot : (c₁.clifford.assignCliffordPreimage observable).xBits.support.head? with
  | none =>
    obtain ⟨c₂, hmeasure, h₂, hmachine₂, hfits₂, hroom⟩ := h₁.measureDeterministic hp hp2 hpivot
      ((hok false).mpr (hdetermined (hiff.mpr hpivot)))
    refine ⟨c₂, hmeasure, h₂, fun r => ?_, fun hfit => hfits₂ (hfits.mpr hfit), hroom⟩
    rw [hmachine₂, hmachine]
  | some pivot =>
    have hnot : ¬ Determined (c₁.machine 0).stabilizers observable.toPhased := by
      intro hd
      rw [hiff.mp hd] at hpivot
      cases hpivot
    obtain ⟨c₂, hmeasure, h₂, hmachine₂, hfits₂, hroom⟩ := h₁.measureRandom hp hp2 hpivot
      ((hok true).mpr (hrandom hnot))
    refine ⟨c₂, hmeasure, h₂, fun r => ?_, fun hfit => hfits₂ (hfits.mpr hfit), hroom⟩
    rw [hmachine₂, hmachine]

theorem Invariant.measureWithHint {observable hint : PauliUnitary}
    (hp2 : observable.toPhased.OrderTwo) (hanti : observable.antiCommutesWith hint = true)
    (hmeasureOk : c.MeasureOk observable.toPhased) :
    ∃ c', c.measureWithHint observable hint = some c' ∧
      c'.Invariant (max n (qubitBound (maxPairSupport observable hint))) ∧
        (∀ r, c'.machine r = (c.machine r).measure r.index observable.toPhased) ∧
          (c.CapacityFits → c'.CapacityFits) := by
  obtain ⟨c₁, hensure, h₁, hmachine, hok, hfits⟩ :=
    h.ensureQubitCapacity (maxPairSupport observable hint)
  obtain ⟨hp, hh⟩ := maxPairSupport_lt_iff.mp (qubitBound_le_iff.mp (le_max_right n _))
  have hmeasureOk₁ : c₁.MeasureOk observable.toPhased := by
    rw [MeasureOk, hmachine, hok, hok]
    exact hmeasureOk
  simp only [OutcomeCompleteSimulation.measureWithHint, hensure, bind_eq_bind,
    bind_some, hanti, if_true]
  cases hpivot : (c₁.clifford.preimage hint).xBits.support.head? with
  | some pivot =>
    obtain ⟨c₂, hmeasure, h₂, hmachine₂, hfits₂, _⟩ := h₁.measure hp2 hmeasureOk₁
    have hbound := qubitBound_le_iff.mpr (below_iff_maxSupport.mp hp)
    rw [max_eq_left hbound] at h₂
    refine ⟨c₂, hmeasure, h₂, fun r => ?_, fun hfit => hfits₂ (hfits.mpr hfit)⟩
    rw [hmachine₂, hmachine]
  | none =>
    have hwf := h₁.encodes.wellFormed_hintedPauli hp hh hanti hpivot hp2
    have hnot := h₁.encodes.not_determined_of_hint hh hanti hpivot
    have hbound := qubitBound_le_iff.mpr (below_iff_maxSupport.mp hwf.1)
    obtain ⟨C', hunitary, h₂, hmachine₂⟩ := h₁.unitaryInUse hwf hbound
    obtain ⟨c₃, hallocate, h₃, hclifford₃, hsigns₃, hbits₃, hmachine₃, hfits₃, _⟩ :=
      h₂.allocateBranchBit (hmeasureOk₁.2 (hnot (c₁.signs 0)))
    have hknown := below_rowSum h₁.signRow_below (c₁.clifford.preimage hint).zBits.support
    obtain ⟨hindicator, hdot⟩ := indicator_assignIndex hknown
    have hsum : rowSum c₃.signMatrix (c₁.clifford.preimage hint).zBits.support =
        rowSum c₁.signMatrix (c₁.clifford.preimage hint).zBits.support := by
      simp only [rowSum, hsigns₃]
    obtain ⟨h₄, hmachine₄⟩ := h₃.applyPauliConditionedOnBranchBits hh
      (hbits₃ ▸ hindicator)
    have hconjugation : (CliffordOp.leftMulPauliExp
        (hintedPauli observable hint (c₁.clifford.preimage hint))).conjugation =
          pauliExp (iPow 3 * (observable.toPhased * c₁.clifford.hintStabilizer hint)) := by
      rw [CliffordOp.conjugation, toPhased_hintedPauli]
    have hconjugate : conjugate hint.toPhased = conjugate (c₁.clifford.hintStabilizer hint) :=
      (conjugate_iPow_mul _ _).symm
    refine ⟨_, ?_, h₄, fun r => ?_, fun hfit => hfits₃ (hfits.mpr hfit)⟩
    · simp only [hunitary, bind_some, hallocate, hsum]
    · have hcollapse := h₁.encodes.image_collapse_hint hh hanti hpivot hp2 (c₁.signs r)
        (r.index c₁.branchBitCount ^^
          Bits.dot (c₁.clifford.preimage hint).zBits (c₁.signs r))
      rw [Bool.xor_assoc, Bool.xor_self, Bool.xor_false, ← dot_rowSum_support, ← hdot]
        at hcollapse
      rw [← hmachine, measure_of_not_determined r.index (hnot (c₁.signs r)),
        h₁.branchBitCount_machine, hmachine₄, hmachine₃, hmachine₂, hconjugation, hconjugate]
      have hallocated : ((c₁.machine r).applyMap
          (pauliExp (iPow 3 * (observable.toPhased * c₁.clifford.hintStabilizer hint)))
            ).allocateRandomBit r.index =
          { (c₁.machine r).allocateRandomBit r.index with
            stabilizers := pauliExp (iPow 3 * (observable.toPhased *
              c₁.clifford.hintStabilizer hint)) '' (c₁.machine r).stabilizers } := rfl
      rw [hallocated]
      split_ifs with hflip
      · refine StabilizerMachine.ext ?_ rfl rfl
        rw [hflip] at hcollapse
        simp only [applyMap, Set.image_image]
        exact hcollapse
      · refine StabilizerMachine.ext ?_ rfl rfl
        rw [Bool.eq_false_iff.mpr hflip] at hcollapse
        exact hcollapse

omit h in
theorem allocateBranchBit_eq_none (hrefused : ¬ c.ReserveOk true) : c.allocateBranchBit = none := by
  simp [OutcomeCompleteSimulation.allocateBranchBit,
    (ensureOutcomeCapacity_eq_none_iff true).mpr hrefused]

theorem Invariant.measure_eq_none (hp2 : observable.toPhased.OrderTwo)
    (hrefused : ¬ c.MeasureOk observable.toPhased) : c.measure observable = none := by
  obtain ⟨c₁, hensure, h₁, hmachine, hok, _⟩ := h.ensureQubitCapacity observable.maxSupport
  have hp : observable.Below (max n (qubitBound observable.maxSupport)) :=
    below_iff_maxSupport.mpr (qubitBound_le_iff.mp (le_max_right _ _))
  have hiff := h₁.encodes.determined_iff hp hp2 (c₁.signs 0)
  have hrefused₁ : ¬ c₁.MeasureOk observable.toPhased := by
    rw [MeasureOk, hmachine, hok, hok]
    exact hrefused
  simp only [OutcomeCompleteSimulation.measure, hensure, bind_eq_bind, bind_some]
  cases hpivot : (c₁.clifford.assignCliffordPreimage observable).xBits.support.head? with
  | none =>
    have hreserve : ¬ c₁.ReserveOk false := fun hreserve =>
      hrefused₁ ⟨fun _ => hreserve, fun hnot => absurd (hiff.mpr hpivot) hnot⟩
    simp [OutcomeCompleteSimulation.measureDeterministic,
      (ensureOutcomeCapacity_eq_none_iff false).mpr hreserve]
  | some pivot =>
    have hreserve : ¬ c₁.ReserveOk true := by
      intro hreserve
      refine hrefused₁ ⟨fun hd => ?_, fun _ => hreserve⟩
      have hnone := hiff.mp hd
      rw [hnone] at hpivot
      cases hpivot
    simp [OutcomeCompleteSimulation.measureRandom, allocateBranchBit_eq_none hreserve]

theorem Invariant.measureWithHint_eq_none {observable hint : PauliUnitary}
    (hp2 : observable.toPhased.OrderTwo) (hanti : observable.antiCommutesWith hint = true)
    (hrefused : ¬ c.MeasureOk observable.toPhased) : c.measureWithHint observable hint = none := by
  obtain ⟨c₁, hensure, h₁, hmachine, hok, _⟩ :=
    h.ensureQubitCapacity (maxPairSupport observable hint)
  obtain ⟨hp, hh⟩ := maxPairSupport_lt_iff.mp (qubitBound_le_iff.mp (le_max_right n _))
  have hrefused₁ : ¬ c₁.MeasureOk observable.toPhased := by
    rw [MeasureOk, hmachine, hok, hok]
    exact hrefused
  simp only [OutcomeCompleteSimulation.measureWithHint, hensure, bind_eq_bind,
    bind_some, hanti, if_true]
  cases hpivot : (c₁.clifford.preimage hint).xBits.support.head? with
  | some pivot => exact h₁.measure_eq_none hp2 hrefused₁
  | none =>
    have hwf := h₁.encodes.wellFormed_hintedPauli hp hh hanti hpivot hp2
    have hnot := h₁.encodes.not_determined_of_hint hh hanti hpivot (c₁.signs 0)
    have hreserve : ¬ c₁.ReserveOk true := fun hreserve =>
      hrefused₁ ⟨fun hd => absurd hd hnot, fun _ => hreserve⟩
    obtain ⟨C', hunitary, _⟩ := h₁.unitaryInUse hwf
      (qubitBound_le_iff.mpr (below_iff_maxSupport.mp hwf.1))
    have hnone : OutcomeCompleteSimulation.allocateBranchBit { c₁ with clifford := C' } = none :=
      allocateBranchBit_eq_none hreserve
    simp [hunitary, hnone]

/-- The capacities requested by an operation pass the assertion. -/
def RecordsOk (c : OutcomeCompleteSimulation) : SimulationOp → Prop
  | .unitary _ => True
  | .conditionalPauli _ _ _ => True
  | .measure observable => c.MeasureOk observable.toPhased
  | .measureWithHint observable _ => c.MeasureOk observable.toPhased
  | .allocateRandomBit => c.ReserveOk true

theorem Invariant.apply (hop : op.WellFormed c.outcomeCount) (hrecords : c.RecordsOk op) :
    ∃ c', c.apply op = some c' ∧ c'.Invariant (max n (qubitBound op.maxSupport)) ∧
      (∀ r, c'.machine r = op.step r.index (c.machine r)) ∧ (c.CapacityFits → c'.CapacityFits) := by
  cases op with
  | unitary op =>
    obtain ⟨c', hunitary, h', hmachine, hfits⟩ := h.unitary hop
    exact ⟨c', hunitary, h', hmachine, hfits.mpr⟩
  | conditionalPauli observable outcomes parity => exact h.conditionalPauli observable hop parity
  | measure observable =>
    obtain ⟨c', hmeasure, h', hmachine, hfits, _⟩ :=
      h.measure (isOrderTwo_iff.mp hop) hrecords
    exact ⟨c', hmeasure, h', hmachine, hfits⟩
  | measureWithHint observable hint =>
    exact h.measureWithHint (isOrderTwo_iff.mp hop.1) hop.2 hrecords
  | allocateRandomBit =>
    obtain ⟨c', hallocate, h', _, _, _, hmachine, hfits, _⟩ := h.allocateBranchBit hrecords
    refine ⟨c', ?_, ?_, hmachine, hfits⟩
    · simp [OutcomeCompleteSimulation.apply, hallocate]
    · simpa [SimulationOp.maxSupport, qubitBound] using h'

theorem Invariant.apply_eq_none (hop : op.WellFormed c.outcomeCount) (hrefused : ¬ c.RecordsOk op) :
    c.apply op = none := by
  cases op with
  | unitary op => exact absurd trivial hrefused
  | conditionalPauli observable outcomes parity => exact absurd trivial hrefused
  | measure observable => exact h.measure_eq_none (isOrderTwo_iff.mp hop) hrefused
  | measureWithHint observable hint =>
    exact h.measureWithHint_eq_none (isOrderTwo_iff.mp hop.1) hop.2 hrefused
  | allocateRandomBit => simp [OutcomeCompleteSimulation.apply, allocateBranchBit_eq_none hrefused]

theorem Invariant.recordsOk (hfits : c.CapacityFits) (op : SimulationOp) : c.RecordsOk op := by
  have hok := fun random => (hfits.grow h.branchBitCount_le random).1
  cases op with
  | unitary op => trivial
  | conditionalPauli observable outcomes parity => trivial
  | measure observable => exact ⟨fun _ => hok false, fun _ => hok true⟩
  | measureWithHint observable hint => exact ⟨fun _ => hok false, fun _ => hok true⟩
  | allocateRandomBit => exact hok true

end Steps

/-- Every operation of a circuit acts on qubits in use where it must, and its capacities pass the
assertion. -/
def RunFits : OutcomeCompleteSimulation → List SimulationOp → Prop
  | _, [] => True
  | c, op :: ops =>
    (op.InUse c.qubitCount ∧ c.RecordsOk op) ∧ ∀ c', c.apply op = some c' → RunFits c' ops

theorem outcomeCount_step {c' : OutcomeCompleteSimulation}
    (hmachine : ∀ r, c'.machine r = op.step r.index (c.machine r)) :
    c'.outcomeCount = c.outcomeCount + op.outcomeCount := by
  have hlength := SimulationOp.length_step (index 0) (c.machine 0) op
  rw [← hmachine 0] at hlength
  exact hlength

variable {ops : List SimulationOp}

theorem Invariant.runFits {n : ℕ}
    (h : c.Invariant n) (hfits : c.CapacityFits)
    (hops : SimulationOp.WellFormedFrom c.outcomeCount ops)
    (hinUse : SimulationOp.InUseFrom n ops) : c.RunFits ops := by
  induction ops generalizing n c with
  | nil => trivial
  | cons op ops ih =>
    refine ⟨⟨?_, h.recordsOk hfits op⟩, fun c' happly => ?_⟩
    · rw [h.qubitCount_eq]
      exact hinUse.1
    · obtain ⟨c₁, happly₁, h₁, hmachine, hfits₁⟩ := h.apply hops.1 (h.recordsOk hfits op)
      obtain rfl := some_inj.mp (happly₁.symm.trans happly)
      refine ih h₁ (hfits₁ hfits) ?_ hinUse.2
      rw [outcomeCount_step hmachine]
      exact hops.2

theorem Invariant.inUseFrom {n : ℕ}
    (h : c.Invariant n) (hops : SimulationOp.WellFormedFrom c.outcomeCount ops)
    (hfits : c.RunFits ops) : SimulationOp.InUseFrom n ops := by
  induction ops generalizing n c with
  | nil => trivial
  | cons op ops ih =>
    obtain ⟨⟨hinUse, hrecords⟩, hrest⟩ := hfits
    obtain ⟨c₁, happly, h₁, hmachine, _⟩ := h.apply hops.1 hrecords
    refine ⟨h.qubitCount_eq ▸ hinUse, ih h₁ ?_ (hrest c₁ happly)⟩
    rw [outcomeCount_step hmachine]
    exact hops.2

theorem Invariant.run {n : ℕ}
    (h : c.Invariant n) (hops : SimulationOp.WellFormedFrom c.outcomeCount ops)
    (hfits : c.RunFits ops) :
    ∃ c', run ops c = some c' ∧ c'.Invariant (SimulationOp.qubitsInUse n ops) ∧
      ∀ r, c'.machine r = SimulationOp.steps r.index ops (c.machine r) := by
  induction ops generalizing n c with
  | nil => exact ⟨c, rfl, h, fun _ => rfl⟩
  | cons op ops ih =>
    obtain ⟨⟨_, hrecords⟩, hrest⟩ := hfits
    obtain ⟨c₁, happly, h₁, hmachine, _⟩ := h.apply hops.1 hrecords
    obtain ⟨c₂, hrun, h₂, hmachine₂⟩ := ih h₁
      (by rw [outcomeCount_step hmachine]; exact hops.2) (hrest c₁ happly)
    refine ⟨c₂, ?_, h₂, fun r => ?_⟩
    · simp only [OutcomeCompleteSimulation.run, foldlM_cons, happly]
      exact hrun
    · rw [hmachine₂, hmachine]
      rfl

theorem Invariant.of_run {n : ℕ} {c' : OutcomeCompleteSimulation}
    (h : c.Invariant n) (hops : SimulationOp.WellFormedFrom c.outcomeCount ops)
    (hrun : OutcomeCompleteSimulation.run ops c = some c') :
    c'.Invariant (SimulationOp.qubitsInUse n ops) := by
  induction ops generalizing n c with
  | nil =>
    obtain rfl := some_inj.mp hrun
    exact h
  | cons op ops ih =>
    by_cases hrecords : c.RecordsOk op
    · obtain ⟨c₁, happly, h₁, hmachine, _⟩ := h.apply hops.1 hrecords
      simp only [OutcomeCompleteSimulation.run, foldlM_cons, happly] at hrun
      exact ih h₁ (by rw [outcomeCount_step hmachine]; exact hops.2) hrun
    · simp [OutcomeCompleteSimulation.run, h.apply_eq_none hops.1 hrecords] at hrun

end OutcomeCompleteSimulation

end QdkEc
