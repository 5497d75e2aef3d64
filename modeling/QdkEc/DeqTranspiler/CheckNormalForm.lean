import QdkEc.Binar.KernelBasis
import QdkEc.Binar.MatrixRank
import QdkEc.Lib.OptionTraversal

/-!
# Normal form of parity checks

This module models how the transpiler brings the checks of a gadget into normal
form, where every output stabilizer is in one check only, and how it extends
checks that were written by hand with checks that were found.  Both eliminate a
matrix with one row for every check.
-/

namespace QdkEc.CheckNormalForm

open List Bits AlignedBitMatrix

/-- A parity check: the members of its set, as they are iterated, and its parity. -/
structure Check where
  members : List ℤ
  parity : Bool
deriving DecidableEq

/-- The stabilizers of a code as they are printed. -/
structure CodeDefinition where
  stabilizers : List String

/-- The statements of a gadget; only the ports are told apart here. -/
inductive GadgetStatement (S : Type*) where
  | inputPort (codeName : String)
  | outputPort (codeName : String)
  | other (statement : S)

structure GadgetDefinition (S : Type*) where
  name : String
  body : List (GadgetStatement S)

structure MeasurementLayout where
  inputVirtualCount : ℕ
  internalCount : ℕ

/-- An output stabilizer: its code, its port, its index and its text. -/
structure OutputVirtual where
  codeName : String
  port : ℕ
  stabIdx : ℕ
  stab : String

/-- The errors, each with the data of its text. -/
inductive CheckError where
  | unknownCode (codeName : String)
  | decomposition (message : String)
  | layoutMismatch (name : String) (layout : MeasurementLayout) (numOv totalMeasurements : ℕ)
  | outOfRange (checkIdx : ℕ) (idx : ℤ) (totalMeasurements : ℕ) (layout : MeasurementLayout)
      (numOv : ℕ)
  | inconsistent
  | invalid (name : String) (missing : List OutputVirtual)
  | assertion
  | invalidManual (check : Check)

/-- Write a check into a row, each member at its column and the parity behind them. -/
def fillRow (column : ℤ → ℕ) (total : ℕ) (matrix : AlignedBitMatrix) (rowIdx : ℕ) (check : Check) :
    AlignedBitMatrix :=
  let matrix := check.members.foldl (fun matrix idx => matrix.set rowIdx (column idx) true) matrix
  if check.parity then matrix.set rowIdx total true else matrix

def matrixOf (column : ℤ → ℕ) (total : ℕ) (checks : List Check) : AlignedBitMatrix :=
  checks.zipIdx.foldl (fun matrix (check, rowIdx) => fillRow column total matrix rowIdx check)
    (zeros checks.length (total + 1))

/-- The members of a check are measurements. -/
def Check.InRange (total : ℕ) (check : Check) : Prop :=
  ∀ idx ∈ check.members, 0 ≤ idx ∧ idx < total

instance (total : ℕ) (check : Check) : Decidable (check.InRange total) :=
  inferInstanceAs (Decidable (∀ idx ∈ check.members, 0 ≤ idx ∧ idx < total))

/-- Write checks in the order of the measurements; a member out of range fails an assertion. -/
def fill (total : ℕ) (checks : List Check) : Except CheckError AlignedBitMatrix :=
  checks.zipIdx.foldlM (fun matrix (check, rowIdx) =>
    if check.InRange total then .ok (fillRow Int.toNat total matrix rowIdx check)
    else .error .assertion) (zeros checks.length (total + 1))

/-- Add the checks that raise the rank until the rank is reached. -/
def extendChecks (total autoRank : ℕ) :
    List Check → List Check → AlignedBitMatrix → ℕ → Except CheckError (List Check)
  | [], result, _, _ => .ok result
  | check :: rest, result, current, currentRank =>
    if currentRank = autoRank then .ok result
    else do
      let trial := rowStacked [current, ← fill total [check]]
      if currentRank < trial.rank then
        extendChecks total autoRank rest (result ++ [check]) trial trial.rank
      else extendChecks total autoRank rest result current currentRank

/-- A manual check must not raise the rank of the automatic ones. -/
def verifyManual (total : ℕ) (autoMatrix : AlignedBitMatrix) (autoRank : ℕ) (check : Check) :
    Except CheckError Unit := do
  let combined := rowStacked [autoMatrix, ← fill total [check]]
  if combined.rank = autoRank then return () else throw (.invalidManual check)

def mergeChecksWithManual (autoChecks manualChecks : List Check) (totalMeasurements : ℕ) :
    Except CheckError (List Check) := do
  let autoMatrix ← fill totalMeasurements autoChecks
  let autoRank := autoMatrix.rank
  manualChecks.forM (verifyManual totalMeasurements autoMatrix autoRank)
  let current ← fill totalMeasurements manualChecks
  extendChecks totalMeasurements autoRank autoChecks manualChecks current current.rank

variable {S : Type*}

def lookupCode (codes : List (String × CodeDefinition)) (codeName : String) :
    Except CheckError CodeDefinition :=
  match codes.lookup codeName with
  | some code => .ok code
  | none => .error (.unknownCode codeName)

/-- The stabilizers of the input ports and the measurements of the decomposed body. -/
def computeLayout (buildDecomposedBody : List (GadgetStatement S) → Except CheckError ℕ)
    (gadget : GadgetDefinition S) (codes : List (String × CodeDefinition)) :
    Except CheckError MeasurementLayout := do
  let inputVirtualCount ← gadget.body.foldlM (fun count statement =>
    match statement with
    | .inputPort codeName => return count + (← lookupCode codes codeName).stabilizers.length
    | _ => return count) 0
  let internalCount ← buildDecomposedBody gadget.body
  return ⟨inputVirtualCount, internalCount⟩

/-- The stabilizers of the output ports from a port on. -/
def outputVirtualInfo (codes : List (String × CodeDefinition)) :
    ℕ → List (GadgetStatement S) → Except CheckError (List OutputVirtual)
  | _, [] => .ok []
  | portIndex, .outputPort codeName :: body => do
      let code ← lookupCode codes codeName
      let rest ← outputVirtualInfo codes (portIndex + 1) body
      return (code.stabilizers.zipIdx.map fun (stab, stabIndex) =>
        ⟨codeName, portIndex, stabIndex, stab⟩) ++ rest
  | portIndex, _ :: body => outputVirtualInfo codes portIndex body

/-- The column of a measurement: the output stabilizers come first. -/
def outputFirst (numOv ovStart : ℕ) (idx : ℤ) : ℕ :=
  if ovStart ≤ idx then (idx - ovStart).toNat else numOv + idx.toNat

/-- The first column with a one before the parity. -/
def leadingCol (matrix : AlignedBitMatrix) (total rowIdx : ℕ) : Option ℕ :=
  (List.range total).find? (matrix.get rowIdx)

def rowToCheck (matrix : AlignedBitMatrix) (numOv ovStart rowIdx : ℕ) : Check where
  members :=
    ((List.range numOv).filter (matrix.get rowIdx)).map (fun col => Int.ofNat (ovStart + col)) ++
      ((List.range ovStart).filter fun col => matrix.get rowIdx (numOv + col)).map Int.ofNat
  parity := matrix.get rowIdx (numOv + ovStart)

/-- Put a row of the eliminated matrix among the finished checks or at its output stabilizer. -/
def placeRow (matrix : AlignedBitMatrix) (numOv ovStart : ℕ)
    (groups : List Check × List (Option Check)) (rowIdx : ℕ) :
    Except CheckError (List Check × List (Option Check)) :=
  match leadingCol matrix (numOv + ovStart) rowIdx with
  | none => if matrix.get rowIdx (numOv + ovStart) then .error .inconsistent else .ok groups
  | some col =>
    let check := rowToCheck matrix numOv ovStart rowIdx
    if col < numOv then .ok (groups.1, groups.2.set col (some check))
    else .ok (groups.1 ++ [check], groups.2)

/-- Split the eliminated rows; every output stabilizer needs a row. -/
def splitRows (name : String) (info : List OutputVirtual) (ovStart : ℕ)
    (matrix : AlignedBitMatrix) : Except CheckError (List Check × List Check) := do
  let (finished, unfinishedByOv) ← (List.range matrix.rowCount).foldlM
    (placeRow matrix info.length ovStart) ([], List.replicate info.length none)
  let missing := ((info.zip unfinishedByOv).filter fun entry => entry.2.isNone).map Prod.fst
  if missing = [] then return (finished, unfinishedByOv.reduceOption)
  else throw (.invalid name missing)

/-- The finished and the unfinished checks of a gadget. -/
def regroupChecks (buildDecomposedBody : List (GadgetStatement S) → Except CheckError ℕ)
    (gadget : GadgetDefinition S) (codes : List (String × CodeDefinition)) (checks : List Check)
    (totalMeasurements : ℕ) : Except CheckError (List Check × List Check) := do
  let layout ← computeLayout buildDecomposedBody gadget codes
  let info ← outputVirtualInfo codes 0 gadget.body
  let ovStart := layout.inputVirtualCount + layout.internalCount
  if ovStart + info.length ≠ totalMeasurements then
    throw (.layoutMismatch gadget.name layout info.length totalMeasurements)
  if info.length = 0 then return (checks, [])
  match (checks.zipIdx.flatMap fun (check, checkIdx) => check.members.map (checkIdx, ·)).find?
      fun (_, idx) => idx < 0 ∨ totalMeasurements ≤ idx with
  | some (checkIdx, idx) =>
    throw (.outOfRange checkIdx idx totalMeasurements layout info.length)
  | none =>
    splitRows gadget.name info ovStart
      (matrixOf (outputFirst info.length ovStart) (info.length + ovStart) checks).echelonize.1

/-- A check over two elements: its members and its parity. -/
def Check.vector (check : Check) : (ℤ → ZMod 2) × ZMod 2 :=
  (fun z => if z ∈ check.members then 1 else 0, if check.parity then 1 else 0)

/-- The sums of some checks. -/
def spanOf (checks : List Check) : Submodule (ZMod 2) ((ℤ → ZMod 2) × ZMod 2) :=
  Submodule.span (ZMod 2) {v | ∃ check ∈ checks, check.vector = v}

section Spans

variable {checks : List Check} {V : Submodule (ZMod 2) ((ℤ → ZMod 2) × ZMod 2)}

theorem vector_mem_spanOf {check : Check} (h : check ∈ checks) : check.vector ∈ spanOf checks :=
  Submodule.subset_span ⟨check, h, rfl⟩

theorem spanOf_le : spanOf checks ≤ V ↔ ∀ check ∈ checks, check.vector ∈ V := by
  refine ⟨fun h check hc => h (vector_mem_spanOf hc), fun h => Submodule.span_le.mpr ?_⟩
  rintro _ ⟨check, hc, rfl⟩
  exact h check hc

theorem spanOf_mono {more : List Check} (h : checks ⊆ more) : spanOf checks ≤ spanOf more :=
  spanOf_le.mpr fun _ hc => vector_mem_spanOf (h hc)

theorem spanOf_append_single {check : Check} (h : check.vector ∈ spanOf checks) :
    spanOf (checks ++ [check]) = spanOf checks := by
  refine le_antisymm (spanOf_le.mpr fun c hc => ?_) (spanOf_mono (subset_append_left _ _))
  rcases mem_append.mp hc with hc | hc
  · exact vector_mem_spanOf hc
  · rwa [mem_singleton.mp hc]

instance (checks : List Check) : Module.Finite (ZMod 2) (spanOf checks) :=
  FiniteDimensional.span_of_finite _ ((checks.map Check.vector).finite_toSet.subset
    fun _ ⟨c, hc, hv⟩ => mem_map.mpr ⟨c, hc, hv⟩)

end Spans

/-- Columns that place the measurements before the parity, each measurement at its own column. -/
structure Placement (column : ℤ → ℕ) (total : ℕ) : Prop where
  lt : ∀ z : ℤ, 0 ≤ z → z < total → column z < total
  inj : ∀ y z : ℤ, 0 ≤ y → y < total → 0 ≤ z → z < total → column y = column z → y = z
  surj : ∀ j, j < total → ∃ z : ℤ, 0 ≤ z ∧ z < total ∧ column z = j

theorem placement_toNat (total : ℕ) : Placement Int.toNat total where
  lt z _ hz := by omega
  inj y z _ _ _ _ h := by omega
  surj j hj := ⟨j, by omega, by omega, rfl⟩

theorem placement_outputFirst (numOv ovStart : ℕ) :
    Placement (outputFirst numOv ovStart) (numOv + ovStart) where
  lt z _ hz := by
    unfold outputFirst
    split_ifs <;> omega
  inj y z _ _ _ _ h := by
    unfold outputFirst at h
    split_ifs at h <;> omega
  surj j hj := by
    unfold outputFirst
    rcases Nat.lt_or_ge j numOv with h | h
    · exact ⟨ovStart + j, by omega, by omega, by rw [if_pos (by omega)]; omega⟩
    · exact ⟨(j - numOv : ℕ), by omega, by omega, by rw [if_neg (by omega)]; omega⟩

section Rows

variable {column : ℤ → ℕ} {total : ℕ} (hplace : Placement column total)

/-- The columns that a check sets. -/
def columnsOf (column : ℤ → ℕ) (total : ℕ) (check : Check) : List ℕ :=
  check.members.map column ++ if check.parity then [total] else []

def rowOf (column : ℤ → ℕ) (total : ℕ) (check : Check) : Bits :=
  fromIndices (columnsOf column total check)

/-- The check that a row stands for; the bits behind the parity stand for nothing. -/
def decode (column : ℤ → ℕ) (total : ℕ) : Bits →ₗ[ZMod 2] (ℤ → ZMod 2) × ZMod 2 :=
  LinearMap.prod (LinearMap.pi fun z =>
    if z < 0 then 0 else entry (if z < total then column z else z.toNat + 1)) (entry total)

theorem decode_fst {z : ℤ} (h0 : 0 ≤ z) (b : Bits) : (decode column total b).1 z =
      if b.index (if z < total then column z else z.toNat + 1) then 1 else 0 := by
  change (if z < 0 then (0 : Bits →ₗ[ZMod 2] ZMod 2) else _) b = _
  rw [if_neg (by omega), entry_apply]

theorem decode_fst_neg {z : ℤ} (h0 : z < 0) (b : Bits) : (decode column total b).1 z = 0 := by
  change (if z < 0 then (0 : Bits →ₗ[ZMod 2] ZMod 2) else _) b = _
  rw [if_pos h0, LinearMap.zero_apply]

theorem decode_snd (b : Bits) : (decode column total b).2 = if b.index total then 1 else 0 :=
  entry_apply total b

theorem index_rowOf (check : Check) (j : ℕ) :
    (rowOf column total check).index j =
      decide ((∃ z ∈ check.members, column z = j) ∨ check.parity = true ∧ j = total) := by
  rw [rowOf, index_fromIndices, columnsOf]
  refine decide_eq_decide.mpr ?_
  cases check.parity <;> simp

include hplace

theorem decode_injective : Function.Injective (decode column total) := by
  intro a b hab
  refine eq_of_entry fun j => ?_
  rw [entry_apply, entry_apply]
  rcases Nat.lt_trichotomy j total with hj | rfl | hj
  · obtain ⟨z, h0, hz, rfl⟩ := hplace.surj j hj
    have h := congrFun (congrArg Prod.fst hab) z
    rwa [decode_fst h0, decode_fst h0, if_pos hz] at h
  · have h := congrArg Prod.snd hab
    rwa [decode_snd, decode_snd] at h
  · have h := congrFun (congrArg Prod.fst hab) (j - 1 : ℕ)
    have hz : ¬ ((j - 1 : ℕ) : ℤ) < total := by omega
    rw [decode_fst (by omega), decode_fst (by omega), if_neg hz] at h
    rwa [show ((j - 1 : ℕ) : ℤ).toNat + 1 = j by omega] at h

theorem below_rowOf {check : Check} (hc : check.InRange total) :
    (rowOf column total check).Below (total + 1) := by
  rw [below_iff]
  intro j hj
  rw [index_rowOf, decide_eq_false]
  rintro (⟨z, hz, rfl⟩ | ⟨_, rfl⟩)
  · have := hplace.lt z (hc z hz).1 (hc z hz).2
    omega
  · omega

theorem decode_rowOf {check : Check} (hc : check.InRange total) :
    decode column total (rowOf column total check) = check.vector := by
  refine Prod.ext (funext fun z => ?_) ?_
  · change _ = if z ∈ check.members then _ else _
    rcases lt_or_ge z 0 with h0 | h0
    · rw [decode_fst_neg h0, if_neg fun hz => absurd (hc z hz).1 (by omega)]
    · rw [decode_fst h0, index_rowOf]
      simp only [decide_eq_true_eq]
      refine if_congr ?_ rfl rfl
      split_ifs with hz
      · have hlt := hplace.lt z h0 hz
        constructor
        · rintro (⟨y, hy, heq⟩ | ⟨_, heq⟩)
          · rwa [← hplace.inj y z (hc y hy).1 (hc y hy).2 h0 hz heq]
          · omega
        · exact fun hmem => Or.inl ⟨z, hmem, rfl⟩
      · refine iff_of_false ?_ fun hmem => hz (hc z hmem).2
        rintro (⟨y, hy, heq⟩ | ⟨_, heq⟩)
        · have := hplace.lt y (hc y hy).1 (hc y hy).2
          omega
        · omega
  · rw [decode_snd, index_rowOf]
    simp only [decide_eq_true_eq]
    refine if_congr ⟨?_, fun h => Or.inr ⟨h, trivial⟩⟩ rfl rfl
    rintro (⟨y, hy, heq⟩ | ⟨h, _⟩)
    · have := hplace.lt y (hc y hy).1 (hc y hy).2
      omega
    · exact h

end Rows

/-- The rows of a matrix are those of some checks. -/
structure Stores (column : ℤ → ℕ) (total : ℕ) (m : AlignedBitMatrix) (checks : List Check) :
    Prop where
  rowCount : m.rowCount = checks.length
  columnCount : m.columnCount = total + 1
  row : ∀ i (hi : i < checks.length), m.row i = rowOf column total checks[i]

section Matrices

variable {column : ℤ → ℕ} {total : ℕ} {checks : List Check} {m : AlignedBitMatrix}

theorem fillRow_eq (rowIdx : ℕ) (check : Check) : fillRow column total m rowIdx check =
      (columnsOf column total check).foldl (fun matrix col => matrix.set rowIdx col true) m := by
  unfold fillRow columnsOf
  rw [foldl_append, foldl_map]
  split_ifs <;> rfl

theorem stores_matrixOf (column : ℤ → ℕ) (total : ℕ) (checks : List Check) :
    Stores column total (matrixOf column total checks) checks := by
  have hwrites : matrixOf column total checks =
      (checks.zipIdx.flatMap fun entry => (columnsOf column total entry.1).map (entry.2, ·)).foldl
        (fun matrix write => matrix.set write.1 write.2 true)
          (zeros checks.length (total + 1)) := by
    simp only [matrixOf, fillRow_eq, foldl_flatMap, foldl_map]
  have hmem : ∀ write : ℕ × ℕ, (write ∈ checks.zipIdx.flatMap fun entry =>
      (columnsOf column total entry.1).map (entry.2, ·)) ↔
        ∃ check, checks[write.1]? = some check ∧ write.2 ∈ columnsOf column total check := by
    rintro ⟨i, j⟩
    simp only [mem_flatMap, mem_map, Prod.exists, mem_zipIdx_iff_getElem?, Prod.mk.injEq]
    constructor
    · rintro ⟨check, _, hc, _, hj, rfl, rfl⟩
      exact ⟨check, hc, hj⟩
    · rintro ⟨check, hc, hj⟩
      exact ⟨check, i, hc, j, hj, rfl, rfl⟩
  have hrow : ∀ write ∈ checks.zipIdx.flatMap fun entry =>
      (columnsOf column total entry.1).map (entry.2, ·),
        write.1 < (zeros checks.length (total + 1)).rowCount := by
    intro write hw
    obtain ⟨check, hc, _⟩ := (hmem write).mp hw
    rw [rowCount_zeros]
    exact (List.getElem?_eq_some_iff.mp hc).1
  obtain ⟨hshape, hget⟩ := get_foldl_set Prod.fst Prod.snd (fun _ => true) (fun _ _ => true)
    hrow fun _ _ => rfl
  rw [← hwrites] at hshape hget
  refine ⟨hshape.1.trans (rowCount_zeros _ _), hshape.2, fun i hi => ext_index fun j => ?_⟩
  refine (hget i j).trans ?_
  rw [AlignedBitMatrix.get, row_zeros, index_zero, rowOf, index_fromIndices, Bool.eq_iff_iff]
  simp [hmem, hi]

theorem fill_eq (total : ℕ) (checks : List Check) : fill total checks =
      if ∀ check ∈ checks, check.InRange total then .ok (matrixOf Int.toNat total checks)
      else .error .assertion := by
  unfold fill matrixOf
  generalize zeros checks.length (total + 1) = m
  generalize 0 = k
  induction checks generalizing k m with
  | nil => rfl
  | cons check checks ih =>
    rw [zipIdx_cons, foldlM_cons, foldl_cons]
    dsimp only
    by_cases hc : check.InRange total
    · rw [if_pos hc]
      refine (ih _ (k + 1)).trans (if_congr ?_ rfl rfl)
      simp [hc]
    · rw [if_neg hc, if_neg fun h => hc (h check (by simp))]
      rfl

theorem Stores.append (h : Stores column total m checks) {other : AlignedBitMatrix}
    {more : List Check} (hother : Stores column total other more) :
    Stores column total (rowStacked [m, other]) (checks ++ more) where
  rowCount := by rw [rowCount_rowStacked, h.rowCount, hother.rowCount, length_append]
  columnCount := hother.columnCount
  row i hi := by
    rw [row_rowStacked, h.rowCount, getElem_append]
    split_ifs with hlt
    · exact h.row i hlt
    · rw [length_append] at hi
      exact hother.row (i - checks.length) (by omega)

variable (hplace : Placement column total) (h : Stores column total m checks)
  (hrange : ∀ check ∈ checks, check.InRange total)

include hplace h hrange

theorem Stores.entries {i : ℕ} (hi : i < checks.length) :
    m.entries i = rowOf column total checks[i] := by
  rw [AlignedBitMatrix.entries, h.row i hi, h.columnCount]
  exact low_eq_self (below_rowOf hplace (hrange _ (getElem_mem hi)))

theorem Stores.map_rowSpace :
    (rowSpace m.rowCount m.entries).map (decode column total) = spanOf checks := by
  rw [h.rowCount, rowSpace_eq_span, Submodule.map_span, spanOf]
  congr 1
  ext v
  constructor
  · rintro ⟨_, ⟨i, rfl⟩, rfl⟩
    refine ⟨_, getElem_mem i.isLt, ?_⟩
    dsimp only
    rw [h.entries hplace hrange i.isLt, decode_rowOf hplace (hrange _ (getElem_mem i.isLt))]
  · rintro ⟨check, hc, rfl⟩
    obtain ⟨i, hi, rfl⟩ := mem_iff_getElem.mp hc
    refine ⟨_, ⟨⟨i, hi⟩, rfl⟩, ?_⟩
    dsimp only
    rw [h.entries hplace hrange hi, decode_rowOf hplace (hrange _ hc)]

theorem Stores.rank : m.rank = Module.finrank (ZMod 2) (spanOf checks) := by
  rw [rank_eq_finrank, ← h.map_rowSpace hplace hrange]
  exact (Submodule.equivMapOfInjective _ (decode_injective hplace) _).finrank_eq

end Matrices

theorem finrank_append_single_le_iff {checks : List Check} {check : Check} :
    Module.finrank (ZMod 2) (spanOf (checks ++ [check])) ≤ Module.finrank (ZMod 2) (spanOf checks) ↔
      check.vector ∈ spanOf checks := by
  constructor
  · intro h
    rw [Submodule.eq_of_le_of_finrank_le (spanOf_mono (subset_append_left checks [check])) h]
    exact vector_mem_spanOf (by simp)
  · intro h
    rw [spanOf_append_single h]

/-- The checks that extend a result span the automatic checks with it, and none of them depends on
what is before it. -/
structure Extends (autoChecks result added : List Check) : Prop where
  sublist : added <+ autoChecks
  spanOf_eq : spanOf (result ++ added) = spanOf autoChecks
  independent : ∀ before check after, added = before ++ check :: after →
    check.vector ∉ spanOf (result ++ before)

theorem Extends.cons {autoChecks result added : List Check} {check : Check}
    (h : Extends autoChecks (result ++ [check]) added) (hcheck : check.vector ∉ spanOf result)
    (hsub : check :: added <+ autoChecks) : Extends autoChecks result (check :: added) where
  sublist := hsub
  spanOf_eq := by
    rw [← h.spanOf_eq, append_assoc]
    rfl
  independent before c after hsplit := by
    cases before with
    | nil =>
      obtain ⟨rfl, rfl⟩ := cons_eq_cons.mp hsplit
      rwa [append_nil]
    | cons b before =>
      obtain ⟨rfl, htail⟩ := cons_eq_cons.mp hsplit
      have hnot := h.independent before c after htail
      rwa [append_assoc] at hnot

section Merge

variable {total : ℕ} {autoChecks : List Check}

theorem extendChecks_spec {result rest : List Check} {current : AlignedBitMatrix}
    (h : Stores Int.toNat total current result) (hresult : ∀ check ∈ result, check.InRange total)
    (hauto : ∀ check ∈ autoChecks, check.InRange total) (hrest : rest <+ autoChecks)
    (hdone : ∀ check ∈ autoChecks, check ∈ rest ∨ check.vector ∈ spanOf result)
    (hle : spanOf result ≤ spanOf autoChecks) :
    ∃ added, extendChecks total (Module.finrank (ZMod 2) (spanOf autoChecks)) rest result current
        current.rank = .ok (result ++ added) ∧ added <+ rest ∧ Extends autoChecks result added := by
  induction rest generalizing result current with
  | nil =>
    refine ⟨[], by rw [append_nil]; rfl, nil_sublist _, nil_sublist _, ?_, by simp⟩
    rw [append_nil]
    exact le_antisymm hle (spanOf_le.mpr fun c hc => (hdone c hc).resolve_left (by simp))
  | cons check rest ih =>
    have hcheck : check.InRange total := hauto check (hrest.subset (by simp))
    have htrial := h.append (stores_matrixOf Int.toNat total [check])
    have hmore := forall_mem_append.mpr ⟨hresult, forall_mem_singleton.mpr hcheck⟩
    have hrank := h.rank (placement_toNat total) hresult
    have htrialRank := htrial.rank (placement_toNat total) hmore
    have hnext : ∀ {result' : List Check}, spanOf result ≤ spanOf result' →
        check.vector ∈ spanOf result' → ∀ c ∈ autoChecks, c ∈ rest ∨ c.vector ∈ spanOf result' := by
      intro result' hle' hmem c hc
      rcases hdone c hc with hc | hc
      · rcases mem_cons.mp hc with rfl | hc
        · exact Or.inr hmem
        · exact Or.inl hc
      · exact Or.inr (hle' hc)
    have hrest' := (sublist_cons_self check rest).trans hrest
    unfold extendChecks
    split_ifs with hreached
    · refine ⟨[], by rw [append_nil], nil_sublist _, nil_sublist _, ?_, by simp⟩
      rw [append_nil]
      exact Submodule.eq_of_le_of_finrank_eq hle (hrank.symm.trans hreached)
    rw [fill_eq, if_pos (by simpa using hcheck)]
    dsimp only [bind, Except.bind]
    split_ifs with hlt
    · rw [hrank, htrialRank, ← not_le, finrank_append_single_le_iff] at hlt
      have hle' : spanOf (result ++ [check]) ≤ spanOf autoChecks :=
        spanOf_le.mpr (forall_mem_append.mpr ⟨spanOf_le.mp hle,
          forall_mem_singleton.mpr (vector_mem_spanOf (hrest.subset (by simp)))⟩)
      obtain ⟨added, heq, hsub, hextends⟩ := ih htrial hmore hrest'
        (hnext (spanOf_mono (subset_append_left _ _)) (vector_mem_spanOf (by simp))) hle'
      rw [append_assoc] at heq
      exact ⟨check :: added, heq, hsub.cons_cons check,
        hextends.cons hlt ((hsub.cons_cons check).trans hrest)⟩
    · rw [hrank, htrialRank, not_lt, finrank_append_single_le_iff] at hlt
      obtain ⟨added, heq, hsub, hextends⟩ := ih h hresult hrest' (hnext le_rfl hlt) hle
      exact ⟨added, heq, hsub.cons check, hextends⟩

theorem inRange_of_mem_spanOf (hauto : ∀ check ∈ autoChecks, check.InRange total) {check : Check}
    (h : check.vector ∈ spanOf autoChecks) : check.InRange total := by
  intro z hz
  by_contra hout
  let readout : (ℤ → ZMod 2) × ZMod 2 →ₗ[ZMod 2] ZMod 2 :=
    (LinearMap.proj z).comp (LinearMap.fst _ _ _)
  have hzero : spanOf autoChecks ≤ LinearMap.ker readout := by
    refine spanOf_le.mpr fun c hc => LinearMap.mem_ker.mpr ?_
    exact if_neg fun hmem => hout (hauto c hc z hmem)
  have hone := LinearMap.mem_ker.mp (hzero h)
  rw [show readout check.vector = 1 from if_pos hz] at hone
  exact one_ne_zero hone

theorem forM_of_forall {E A : Type} {check : A → Except E Unit} {l : List A}
    (h : ∀ a ∈ l, check a = .ok ()) : l.forM check = .ok () := by
  induction l with
  | nil => rfl
  | cons a l ih =>
    change (check a >>= fun _ => l.forM check) = _
    rw [h a (by simp)]
    exact ih fun b hb => h b (by simp [hb])

section Verify

variable (hauto : ∀ check ∈ autoChecks, check.InRange total)

include hauto

theorem verifyManual_eq_ok_iff {check : Check} :
    verifyManual total (matrixOf Int.toNat total autoChecks)
      (matrixOf Int.toNat total autoChecks).rank check = .ok () ↔
        check.vector ∈ spanOf autoChecks := by
  have hplace := placement_toNat total
  have hstores := stores_matrixOf Int.toNat total autoChecks
  unfold verifyManual
  by_cases hcheck : check.InRange total
  · have hmore := forall_mem_append.mpr ⟨hauto, forall_mem_singleton.mpr hcheck⟩
    have hcombined := hstores.append (stores_matrixOf Int.toNat total [check])
    have hle := Submodule.finrank_mono (spanOf_mono (subset_append_left autoChecks [check]))
    rw [fill_eq, if_pos (by simpa using hcheck), ← finrank_append_single_le_iff]
    dsimp only [bind, Except.bind]
    rw [hcombined.rank hplace hmore, hstores.rank hplace hauto]
    split_ifs with heq
    · exact iff_of_true rfl heq.le
    · exact iff_of_false (fun h => by cases h) fun h => heq (le_antisymm h hle)
  · rw [fill_eq, if_neg (by simpa using hcheck)]
    exact iff_of_false (fun h => by cases h) fun h => hcheck (inRange_of_mem_spanOf hauto h)

theorem mergeChecksWithManual_eq_ok {manualChecks : List Check}
    (hmanual : ∀ check ∈ manualChecks, check.vector ∈ spanOf autoChecks) :
    ∃ added, mergeChecksWithManual autoChecks manualChecks total = .ok (manualChecks ++ added) ∧
      Extends autoChecks manualChecks added := by
  have hrange : ∀ check ∈ manualChecks, check.InRange total :=
    fun check hc => inRange_of_mem_spanOf hauto (hmanual check hc)
  obtain ⟨added, heq, _, hextends⟩ := extendChecks_spec
    (stores_matrixOf Int.toNat total manualChecks) hrange hauto (Sublist.refl _)
    (fun c hc => Or.inl hc) (spanOf_le.mpr hmanual)
  refine ⟨added, ?_, hextends⟩
  unfold mergeChecksWithManual
  rw [fill_eq, if_pos hauto]
  dsimp only [bind, Except.bind]
  rw [forM_of_forall fun check hc => (verifyManual_eq_ok_iff hauto).mpr (hmanual check hc), fill_eq,
    if_pos hrange, (stores_matrixOf Int.toNat total autoChecks).rank (placement_toNat total) hauto]
  exact heq

end Verify

theorem mergeChecksWithManual_spec (autoChecks manualChecks : List Check) (total : ℕ) :
    ((∃ result, mergeChecksWithManual autoChecks manualChecks total = .ok result) ↔
      (∀ check ∈ autoChecks, check.InRange total) ∧
        ∀ check ∈ manualChecks, check.vector ∈ spanOf autoChecks) ∧
      ∀ result, mergeChecksWithManual autoChecks manualChecks total = .ok result →
        ∃ added, result = manualChecks ++ added ∧ Extends autoChecks manualChecks added := by
  have hsuccess : ∀ result, mergeChecksWithManual autoChecks manualChecks total = .ok result →
      (∀ check ∈ autoChecks, check.InRange total) ∧
        ∀ check ∈ manualChecks, check.vector ∈ spanOf autoChecks := by
    intro result h
    obtain ⟨autoMatrix, hfill, h⟩ := exists_of_bind_eq_ok h
    obtain ⟨_, hverify, _⟩ := exists_of_bind_eq_ok h
    rw [fill_eq] at hfill
    split_ifs at hfill with hauto
    obtain rfl := Except.ok.inj hfill
    exact ⟨hauto, fun check hc => (verifyManual_eq_ok_iff hauto).mp (forM_eq_ok hverify check hc)⟩
  refine ⟨⟨fun ⟨result, h⟩ => hsuccess result h, ?_⟩, fun result h => ?_⟩
  · rintro ⟨hauto, hmanual⟩
    obtain ⟨added, heq, _⟩ := mergeChecksWithManual_eq_ok hauto hmanual
    exact ⟨_, heq⟩
  · obtain ⟨hauto, hmanual⟩ := hsuccess result h
    obtain ⟨added, heq, hextends⟩ := mergeChecksWithManual_eq_ok hauto hmanual
    exact ⟨added, Except.ok.inj (h.symm.trans heq), hextends⟩

end Merge

/-- A matrix in reduced echelon form whose last column is the parity. -/
structure Echelon (total : ℕ) (matrix : AlignedBitMatrix) (pivots : List ℕ) : Prop where
  reduced : Reduced matrix.entries pivots
  columnCount : matrix.columnCount = total + 1
  length_le : pivots.length ≤ matrix.rowCount
  lt : ∀ j ∈ pivots, j < total + 1

section Split

variable {numOv ovStart : ℕ} {matrix : AlignedBitMatrix} {pivots : List ℕ}
  (h : Echelon (numOv + ovStart) matrix pivots)

theorem mem_members_rowToCheck {i k : ℕ} (hk : k < numOv) :
    ((ovStart + k : ℕ) : ℤ) ∈ (rowToCheck matrix numOv ovStart i).members ↔
      matrix.get i k = true := by
  simp only [rowToCheck, mem_append, mem_map, mem_filter, mem_range]
  constructor
  · rintro (⟨col, ⟨_, hget⟩, hcol⟩ | ⟨col, ⟨hlt, _⟩, hcol⟩)
    · rwa [show col = k from Nat.add_left_cancel (Int.ofNat.inj hcol)] at hget
    · have := Int.ofNat.inj hcol
      omega
  · exact fun hget => Or.inl ⟨k, ⟨hk, hget⟩, rfl⟩

include h

theorem Echelon.index_entries {i j : ℕ} (hj : j < numOv + ovStart + 1) :
    (matrix.entries i).index j = matrix.get i j := by
  rw [AlignedBitMatrix.entries, index_low, h.columnCount, decide_eq_true hj, Bool.true_and]
  rfl

theorem Echelon.vector_rowToCheck (i : ℕ) : (rowToCheck matrix numOv ovStart i).vector =
      decode (outputFirst numOv ovStart) (numOv + ovStart) (matrix.entries i) := by
  refine Prod.ext (funext fun z => ?_) ?_
  · change (if z ∈ _ then _ else _) = _
    rcases lt_or_ge z 0 with h0 | h0
    · rw [decode_fst_neg h0, if_neg]
      simp only [rowToCheck, mem_append, mem_map]
      rintro (⟨col, _, rfl⟩ | ⟨col, _, rfl⟩) <;> exact absurd h0 (Int.natCast_nonneg _).not_gt
    rw [decode_fst h0]
    refine if_congr ?_ rfl rfl
    lift z to ℕ using h0
    rcases Nat.lt_or_ge z ovStart with hz | hz
    · rw [if_pos (by omega), outputFirst, if_neg (by omega), Int.toNat_natCast,
        h.index_entries (by omega)]
      simp only [rowToCheck, mem_append, mem_map, mem_filter, mem_range]
      constructor
      · rintro (⟨col, _, hcol⟩ | ⟨col, ⟨_, hget⟩, hcol⟩)
        · have := Int.ofNat.inj hcol
          omega
        · rwa [show col = z from Int.ofNat.inj hcol] at hget
      · exact fun hget => Or.inr ⟨z, ⟨hz, hget⟩, rfl⟩
    obtain ⟨k, rfl⟩ := Nat.exists_eq_add_of_le hz
    rcases Nat.lt_or_ge k numOv with hk | hk
    · rw [mem_members_rowToCheck hk, if_pos (by omega), outputFirst, if_pos (by omega),
        h.index_entries (by omega), show (((ovStart + k : ℕ) : ℤ) - ovStart).toNat = k by omega]
    · rw [if_neg (by omega), AlignedBitMatrix.entries, index_low, h.columnCount,
        decide_eq_false (by omega), Bool.false_and]
      refine iff_of_false ?_ Bool.false_ne_true
      simp only [rowToCheck, mem_append, mem_map, mem_filter, mem_range]
      rintro (⟨col, ⟨hlt, _⟩, hcol⟩ | ⟨col, ⟨hlt, _⟩, hcol⟩)
      · have := Int.ofNat.inj hcol
        omega
      · have := Int.ofNat.inj hcol
        omega
  · rw [decode_snd, h.index_entries (by omega)]
    rfl

theorem Echelon.placeRow_of_le {i : ℕ} (hi : pivots.length ≤ i)
    (groups : List Check × List (Option Check)) :
    placeRow matrix numOv ovStart groups i = .ok groups := by
  have hget : ∀ j, j < numOv + ovStart + 1 → matrix.get i j = false := by
    intro j hj
    rw [← h.index_entries hj, h.reduced.zero i hi, index_zero]
  have hnone : leadingCol matrix (numOv + ovStart) i = none :=
    find?_range_eq_none.mpr fun j hj => by rw [hget j (by omega)]; rfl
  unfold placeRow
  rw [hnone]
  dsimp only
  rw [hget _ (by omega)]
  rfl

theorem Echelon.placeRow_of_parity {i : ℕ} (hi : i < pivots.length)
    (hparity : pivots[i] = numOv + ovStart) (groups : List Check × List (Option Check)) :
    placeRow matrix numOv ovStart groups i = .error .inconsistent := by
  have hnone : leadingCol matrix (numOv + ovStart) i = none :=
    find?_range_eq_none.mpr fun j hj => by
      rw [← h.index_entries (by omega), h.reduced.leading i hi j (by omega)]
      rfl
  have hget := h.reduced.pivot i i hi
  rw [decide_eq_true rfl, h.index_entries (h.lt _ (getElem_mem hi)), hparity] at hget
  unfold placeRow
  rw [hnone]
  dsimp only
  rw [hget]
  rfl

theorem Echelon.placeRow_of_lt {i : ℕ} (hi : i < pivots.length)
    (hlt : pivots[i] < numOv + ovStart) (groups : List Check × List (Option Check)) :
    placeRow matrix numOv ovStart groups i =
      let check := rowToCheck matrix numOv ovStart i
      if pivots[i] < numOv then .ok (groups.1, groups.2.set pivots[i] (some check))
      else .ok (groups.1 ++ [check], groups.2) := by
  have hsome : leadingCol matrix (numOv + ovStart) i = some pivots[i] := by
    refine find?_range_eq_some.mpr ⟨?_, mem_range.mpr hlt, fun j hj => ?_⟩
    · rw [← h.index_entries (by omega), h.reduced.pivot i i hi, decide_eq_true rfl]
    · rw [← h.index_entries (by omega), h.reduced.leading i hi j hj]
      rfl
  unfold placeRow
  rw [hsome]

/-- The rows with a pivot behind the output stabilizers. -/
def finishedRows (numOv : ℕ) (pivots : List ℕ) (n : ℕ) : List ℕ :=
  (List.range n).filter fun i => i < pivots.length ∧ numOv ≤ pivots.getD i 0

/-- What the first `n` rows leave at the output stabilizers. -/
def placedRows (matrix : AlignedBitMatrix) (numOv ovStart : ℕ) (pivots : List ℕ) (n : ℕ) :
    List (Option Check) :=
  (List.range numOv).map fun k =>
    if pivots.idxOf k < min n pivots.length then
      some (rowToCheck matrix numOv ovStart (pivots.idxOf k)) else none

theorem Echelon.nodup : pivots.Nodup :=
  h.reduced.sorted.imp fun hab => Nat.ne_of_lt hab

theorem Echelon.placedRows_succ {n : ℕ} (hn : n < pivots.length) :
    placedRows matrix numOv ovStart pivots (n + 1) =
      if pivots[n] < numOv then (placedRows matrix numOv ovStart pivots n).set pivots[n]
          (some (rowToCheck matrix numOv ovStart n))
      else placedRows matrix numOv ovStart pivots n := by
  have hidx : ∀ k, pivots.idxOf k = n ↔ k = pivots[n] := by
    intro k
    constructor
    · rintro rfl
      exact (getElem_idxOf hn).symm
    · rintro rfl
      exact h.nodup.idxOf_getElem n hn
  refine ext_getElem ?_ fun k hk _ => ?_
  · split_ifs <;> simp [placedRows]
  have hk : k < numOv := by simpa [placedRows] using hk
  split_ifs with hlt
  · rw [getElem_set]
    split_ifs with heq
    · simp only [placedRows, getElem_map, getElem_range]
      rw [← heq, (hidx _).mpr rfl, if_pos (by omega)]
    · have hne : pivots.idxOf k ≠ n := fun hkn => heq ((hidx k).mp hkn).symm
      simp only [placedRows, getElem_map, getElem_range]
      exact if_congr (by omega) rfl rfl
  · have hne : pivots.idxOf k ≠ n := fun hkn => hlt ((hidx k).mp hkn ▸ hk)
    simp only [placedRows, getElem_map, getElem_range]
    exact if_congr (by omega) rfl rfl

theorem Echelon.foldlM_placeRow (hparity : numOv + ovStart ∉ pivots) (n : ℕ) :
    (List.range n).foldlM (placeRow matrix numOv ovStart) ([], List.replicate numOv none) =
      .ok ((finishedRows numOv pivots n).map (rowToCheck matrix numOv ovStart),
        placedRows matrix numOv ovStart pivots n) := by
  induction n with
  | zero =>
    change Except.ok _ = Except.ok _
    simp [finishedRows, placedRows]
  | succ n ih =>
    rw [range_succ, foldlM_append, ih]
    change placeRow _ _ _ _ n >>= pure = _
    have hfinished : finishedRows numOv pivots (n + 1) = finishedRows numOv pivots n ++
        [n].filter fun i => i < pivots.length ∧ numOv ≤ pivots.getD i 0 := by
      rw [finishedRows, range_succ, filter_append, finishedRows]
    rw [bind_pure, hfinished]
    rcases Nat.lt_or_ge n pivots.length with hn | hn
    · have hne : pivots[n] ≠ numOv + ovStart := fun heq => hparity (heq ▸ getElem_mem hn)
      have hle := h.lt _ (getElem_mem hn)
      rw [h.placeRow_of_lt hn (by omega), h.placedRows_succ hn]
      dsimp only
      split_ifs with hlt
      · rw [filter_cons_of_neg (by simp [hn, hlt])]
        simp
      · rw [filter_cons_of_pos (by simpa [hn] using hlt)]
        simp
    · rw [h.placeRow_of_le hn, filter_cons_of_neg (by simp [hn])]
      have hmin : min (n + 1) pivots.length = min n pivots.length := by omega
      simp [placedRows, hmin]

end Split

theorem exists_step_of_foldlM_eq_ok {E A B : Type} {f : B → A → Except E B} {l : List A} {b b' : B}
    (h : l.foldlM f b = .ok b') {a : A} (ha : a ∈ l) : ∃ c c', f c a = .ok c' := by
  induction l generalizing b with
  | nil => cases ha
  | cons first rest ih =>
    rw [foldlM_cons] at h
    obtain ⟨c, hstep, hrest⟩ := exists_of_bind_eq_ok h
    rcases mem_cons.mp ha with rfl | ha
    · exact ⟨b, c, hstep⟩
    · exact ih hrest ha

section Groups

variable {name : String} {info : List OutputVirtual} {ovStart : ℕ} {matrix : AlignedBitMatrix}
  {pivots : List ℕ} (h : Echelon (info.length + ovStart) matrix pivots)

include h

theorem Echelon.splitRows_eq_ok (hparity : info.length + ovStart ∉ pivots)
    (hpivots : ∀ k, k < info.length → k ∈ pivots) : splitRows name info ovStart matrix =
      .ok ((finishedRows info.length pivots matrix.rowCount).map
          (rowToCheck matrix info.length ovStart),
        ((List.range info.length).map pivots.idxOf).map
          (rowToCheck matrix info.length ovStart)) := by
  have hplaced : placedRows matrix info.length ovStart pivots matrix.rowCount =
      (((List.range info.length).map pivots.idxOf).map
        (rowToCheck matrix info.length ovStart)).map some := by
    rw [placedRows, map_map, map_map]
    refine map_congr_left fun k hk => ?_
    rw [min_eq_right h.length_le, if_pos (idxOf_lt_length_iff.mpr (hpivots k (mem_range.mp hk)))]
    rfl
  unfold splitRows
  rw [h.foldlM_placeRow hparity, hplaced]
  dsimp only [bind, Except.bind]
  rw [if_pos]
  · change Except.ok (_, filterMap id (map some _)) = _
    rw [filterMap_map]
    simp
  · rw [map_eq_nil_iff, filter_eq_nil_iff]
    rintro ⟨entry, check⟩ hmem
    obtain ⟨check, _, rfl⟩ := mem_map.mp (of_mem_zip hmem).2
    simp

theorem Echelon.pivots_of_splitRows_eq_ok {groups : List Check × List Check}
    (hok : splitRows name info ovStart matrix = .ok groups) :
    info.length + ovStart ∉ pivots ∧ ∀ k, k < info.length → k ∈ pivots := by
  obtain ⟨placed, hloop, hmissing⟩ := exists_of_bind_eq_ok hok
  have hparity : info.length + ovStart ∉ pivots := by
    intro hmem
    obtain ⟨i, hi, hpivot⟩ := mem_iff_getElem.mp hmem
    have hle := h.length_le
    obtain ⟨groups', _, hstep⟩ :=
      exists_step_of_foldlM_eq_ok hloop (mem_range.mpr (lt_of_lt_of_le hi hle))
    rw [h.placeRow_of_parity hi hpivot] at hstep
    cases hstep
  refine ⟨hparity, fun k hk => ?_⟩
  rw [h.foldlM_placeRow hparity] at hloop
  obtain rfl := Except.ok.inj hloop
  dsimp only at hmissing
  split_ifs at hmissing with hnone
  rw [map_eq_nil_iff, filter_eq_nil_iff] at hnone
  by_contra hnot
  have hlength : k < (info.zip (placedRows matrix info.length ovStart pivots
      matrix.rowCount)).length := by
    simpa [placedRows] using hk
  refine hnone _ (getElem_mem hlength) ?_
  rw [getElem_zip]
  simp only [placedRows, getElem_map, getElem_range]
  rw [idxOf_eq_length hnot, if_neg (by omega)]
  rfl

end Groups

/-- No check depends on the others. -/
def Independent (checks : List Check) : Prop :=
  LinearIndependent (ZMod 2) fun i : Fin checks.length => checks[i].vector

/-- The normal form of some checks. -/
structure NormalForm (numOv ovStart : ℕ) (checks finished unfinished : List Check) : Prop where
  finished_clear : ∀ check ∈ finished, ∀ k, k < numOv → ((ovStart + k : ℕ) : ℤ) ∉ check.members
  length_unfinished : unfinished.length = numOv
  unfinished_single : ∀ j k (hk : k < unfinished.length), j < numOv →
    (((ovStart + j : ℕ) : ℤ) ∈ unfinished[k].members ↔ j = k)
  independent : Independent (finished ++ unfinished)
  spanOf_eq : spanOf (finished ++ unfinished) = spanOf checks

theorem basis_of_perm {f : ℕ → Check} {l : List ℕ} {n : ℕ} (hl : l.Nodup)
    (hmem : ∀ i, i ∈ l ↔ i < n)
    (hindependent : LinearIndependent (ZMod 2) fun i : Fin n => (f i).vector) :
    Independent (l.map f) ∧
      spanOf (l.map f) = Submodule.span (ZMod 2) (Set.range fun i : Fin n => (f i).vector) := by
  constructor
  · have hlt : ∀ i : Fin (l.map f).length, i.val < l.length := fun i => by simpa using i.isLt
    let e : Fin (l.map f).length → Fin n := fun i =>
      ⟨l.get ⟨i, hlt i⟩, (hmem _).mp (getElem_mem _)⟩
    have he : Function.Injective e := by
      intro i j hij
      exact Fin.ext (hl.getElem_inj_iff.mp (congrArg Fin.val hij))
    have hfamily : (fun i : Fin (l.map f).length => (l.map f)[i].vector) =
        (fun i : Fin n => (f i).vector) ∘ e := by
      funext i
      simp [e]
    rw [Independent, hfamily]
    exact hindependent.comp e he
  · rw [spanOf]
    congr 1
    ext v
    constructor
    · rintro ⟨check, hc, rfl⟩
      obtain ⟨i, hi, rfl⟩ := mem_map.mp hc
      exact ⟨⟨i, (hmem i).mp hi⟩, rfl⟩
    · rintro ⟨i, rfl⟩
      exact ⟨_, mem_map_of_mem ((hmem i).mpr i.isLt), rfl⟩

section Forms

variable {info : List OutputVirtual} {numOv ovStart : ℕ} {matrix : AlignedBitMatrix}
  {pivots : List ℕ} (h : Echelon (numOv + ovStart) matrix pivots)

include h

theorem Echelon.normalForm {checks : List Check}
    (hspan : (rowSpace matrix.rowCount matrix.entries).map
      (decode (outputFirst numOv ovStart) (numOv + ovStart)) = spanOf checks)
    (hpivots : ∀ k, k < numOv → k ∈ pivots) :
    NormalForm numOv ovStart checks
      ((finishedRows numOv pivots matrix.rowCount).map (rowToCheck matrix numOv ovStart))
      (((List.range numOv).map pivots.idxOf).map (rowToCheck matrix numOv ovStart)) := by
  have hplace := placement_outputFirst numOv ovStart
  have hfinished : ∀ i, i ∈ finishedRows numOv pivots matrix.rowCount ↔
      ∃ hi : i < pivots.length, numOv ≤ pivots[i] := by
    intro i
    have hle := h.length_le
    simp only [finishedRows, mem_filter, mem_range, decide_eq_true_eq]
    constructor
    · rintro ⟨_, hi, hge⟩
      rw [getD_eq_getElem _ _ hi] at hge
      exact ⟨hi, hge⟩
    · rintro ⟨hi, hge⟩
      exact ⟨by omega, hi, by rwa [getD_eq_getElem _ _ hi]⟩
  -- Every pivot row is in one of the groups, and in one only.
  have hnodup : (finishedRows numOv pivots matrix.rowCount ++
      (List.range numOv).map pivots.idxOf).Nodup := by
    refine Nodup.append (nodup_range.filter _) (Nodup.map_on ?_ nodup_range) ?_
    · intro j hj k _ heq
      exact (idxOf_inj (hpivots j (mem_range.mp hj))).mp heq
    · intro i hi hi'
      obtain ⟨k, hk, rfl⟩ := mem_map.mp hi'
      obtain ⟨hlt, hge⟩ := (hfinished _).mp hi
      rw [getElem_idxOf] at hge
      exact absurd (mem_range.mp hk) (by omega)
  have hmem : ∀ i, i ∈ finishedRows numOv pivots matrix.rowCount ++
      (List.range numOv).map pivots.idxOf ↔ i < pivots.length := by
    intro i
    rw [mem_append, hfinished, mem_map]
    constructor
    · rintro (⟨hi, _⟩ | ⟨k, hk, rfl⟩)
      · exact hi
      · exact idxOf_lt_length_iff.mpr (hpivots k (mem_range.mp hk))
    · intro hi
      rcases Nat.lt_or_ge pivots[i] numOv with hlt | hge
      · exact Or.inr ⟨pivots[i], mem_range.mpr hlt, h.nodup.idxOf_getElem i hi⟩
      · exact Or.inl ⟨hi, hge⟩
  have hfamily : (fun i : Fin pivots.length => (rowToCheck matrix numOv ovStart i).vector) =
      decode (outputFirst numOv ovStart) (numOv + ovStart) ∘
        fun i : Fin pivots.length => matrix.entries i :=
    funext fun i => h.vector_rowToCheck i
  obtain ⟨hindependent, hspanOf⟩ := basis_of_perm (f := rowToCheck matrix numOv ovStart)
    hnodup hmem (hfamily ▸ h.reduced.independent.linearIndependent.map' _
      (LinearMap.ker_eq_bot.mpr (decode_injective hplace)))
  rw [map_append] at hindependent hspanOf
  refine ⟨?_, by simp, ?_, hindependent, ?_⟩
  · intro check hc k hk hmember
    obtain ⟨i, hi, rfl⟩ := mem_map.mp hc
    obtain ⟨hi, hge⟩ := (hfinished i).mp hi
    rw [mem_members_rowToCheck hk, ← h.index_entries (by omega),
      h.reduced.leading i hi k (by omega)] at hmember
    cases hmember
  · intro j k hk hj
    have hidx := idxOf_lt_length_iff.mpr (hpivots j hj)
    have hentry := h.reduced.pivot (pivots.idxOf k) (pivots.idxOf j) hidx
    rw [getElem_idxOf, h.index_entries (by omega)] at hentry
    rw [getElem_map, getElem_map, getElem_range, mem_members_rowToCheck hj, hentry,
      decide_eq_true_eq, eq_comm, idxOf_inj (hpivots j hj)]
  · rw [hspanOf, hfamily, Set.range_comp, ← Submodule.map_span, ← rowSpace_eq_span,
      ← h.reduced.rowSpace_eq_rowSpace_length h.length_le, hspan]

theorem Echelon.parity_mem_iff {checks : List Check}
    (hspan : (rowSpace matrix.rowCount matrix.entries).map
      (decode (outputFirst numOv ovStart) (numOv + ovStart)) = spanOf checks) :
    numOv + ovStart ∈ pivots ↔ (0, 1) ∈ spanOf checks := by
  have hplace := placement_outputFirst numOv ovStart
  rw [h.reduced.mem_pivots_iff h.length_le, ← hspan]
  constructor
  · rintro ⟨v, hv, hbit, hbefore⟩
    refine ⟨v, hv, Prod.ext (funext fun z => ?_) (by rw [decode_snd, hbit]; rfl)⟩
    rcases lt_or_ge z 0 with h0 | h0
    · rw [decode_fst_neg h0]
      rfl
    rw [decode_fst h0, if_neg]
    · rfl
    · rw [Bool.not_eq_true]
      split_ifs with hz
      · exact hbefore _ (hplace.lt z h0 hz)
      · obtain ⟨t, _, rfl⟩ := hv
        refine (below_combine _ fun i _ => below_low _ _).index_eq_false ?_
        rw [h.columnCount]
        omega
  · rintro ⟨v, hv, heq⟩
    refine ⟨v, hv, ?_, fun k hk => ?_⟩
    · have hsnd := congrArg Prod.snd heq
      rw [decode_snd] at hsnd
      by_contra hset
      rw [if_neg hset] at hsnd
      exact zero_ne_one hsnd
    · obtain ⟨z, h0, hz, rfl⟩ := hplace.surj k hk
      have hfst := congrFun (congrArg Prod.fst heq) z
      rw [decode_fst h0, if_pos hz] at hfst
      by_contra hset
      rw [if_pos (by simpa using hset)] at hfst
      exact one_ne_zero hfst

omit h in
theorem decode_output {k : ℕ} (hk : k < numOv) (b : Bits) :
    (decode (outputFirst numOv ovStart) (numOv + ovStart) b).1 ((ovStart + k : ℕ) : ℤ) =
      if b.index k then 1 else 0 := by
  have hlt : ((ovStart + k : ℕ) : ℤ) < (numOv + ovStart : ℕ) := by omega
  have hcolumn : outputFirst numOv ovStart ((ovStart + k : ℕ) : ℤ) = k := by
    rw [outputFirst, if_pos (by omega)]
    omega
  rw [decode_fst (by omega), if_pos hlt, hcolumn]

theorem Echelon.pivots_iff {checks : List Check}
    (hspan : (rowSpace matrix.rowCount matrix.entries).map
      (decode (outputFirst numOv ovStart) (numOv + ovStart)) = spanOf checks) :
    (∀ k, k < numOv → k ∈ pivots) ↔ ∀ k, k < numOv → ∃ v ∈ spanOf checks,
      v.1 ((ovStart + k : ℕ) : ℤ) = 1 ∧
        ∀ j, j < numOv → j ≠ k → v.1 ((ovStart + j : ℕ) : ℤ) = 0 := by
  rw [← hspan]
  constructor
  · intro hpivots k hk
    have hidx := idxOf_lt_length_iff.mpr (hpivots k hk)
    have hle := h.length_le
    refine ⟨_, ⟨_, row_mem_rowSpace _ (lt_of_lt_of_le hidx hle), rfl⟩, ?_, fun j hj hjk => ?_⟩
    · rw [decode_output hk, if_pos]
      have hpivot := h.reduced.pivot (pivots.idxOf k) (pivots.idxOf k) hidx
      rwa [getElem_idxOf, decide_eq_true rfl] at hpivot
    · rw [decode_output hj, if_neg]
      have hpivot := h.reduced.pivot (pivots.idxOf k) (pivots.idxOf j)
        (idxOf_lt_length_iff.mpr (hpivots j hj))
      rw [getElem_idxOf, decide_eq_false fun heq => hjk ((idxOf_inj (hpivots k hk)).mp heq).symm]
        at hpivot
      simp [hpivot]
  · intro halone k hk
    obtain ⟨_, ⟨v, hv, rfl⟩, hone, hzero⟩ := halone k hk
    rw [decode_output hk] at hone
    refine (h.reduced.mem_pivots_iff h.length_le).mpr ⟨v, hv, ?_, fun j hj => ?_⟩
    · by_contra hset
      rw [if_neg hset] at hone
      exact zero_ne_one hone
    · have hj' := hzero j (by omega) (by omega)
      rw [decode_output (by omega)] at hj'
      by_contra hset
      rw [if_pos (by simpa using hset)] at hj'
      exact one_ne_zero hj'

end Forms

section Regroup

variable {S : Type*} {buildDecomposedBody : List (GadgetStatement S) → Except CheckError ℕ}
  {gadget : GadgetDefinition S} {codes : List (String × CodeDefinition)} {checks : List Check}
  {layout : MeasurementLayout} {info : List OutputVirtual}

theorem echelon_matrixOf {numOv ovStart : ℕ}
    (hrange : ∀ check ∈ checks, check.InRange (numOv + ovStart)) :
    let m := matrixOf (outputFirst numOv ovStart) (numOv + ovStart) checks
    Echelon (numOv + ovStart) m.echelonize.1 (EchelonForm.new m).pivots ∧
      (rowSpace m.echelonize.1.rowCount m.echelonize.1.entries).map
        (decode (outputFirst numOv ovStart) (numOv + ovStart)) = spanOf checks := by
  intro m
  have hstores := stores_matrixOf (outputFirst numOv ovStart) (numOv + ovStart) checks
  have h := EchelonForm.eliminated_new m
  have hentries : (EchelonForm.new m).matrix.entries = fun i =>
      low m.columnCount ((EchelonForm.new m).matrix.row i) :=
    funext fun i => by rw [AlignedBitMatrix.entries, h.transforms.columnCount]
  rw [EchelonForm.echelonize_eq]
  dsimp only
  rw [hentries, h.transforms.rowCount]
  refine ⟨⟨hentries ▸ h.reduced, h.transforms.columnCount.trans hstores.columnCount,
    h.length_le.trans_eq h.transforms.rowCount.symm, fun j hj => ?_⟩, ?_⟩
  · have hlt := h.lt j hj
    rwa [hstores.columnCount] at hlt
  · rw [h.rowSpace_eq]
    exact hstores.map_rowSpace (placement_outputFirst numOv ovStart) hrange

variable {total : ℕ}

theorem regroupChecks_eq (hlayout : computeLayout buildDecomposedBody gadget codes = .ok layout)
    (hinfo : outputVirtualInfo codes 0 gadget.body = .ok info)
    (htotal : total = layout.inputVirtualCount + layout.internalCount + info.length)
    (hports : info ≠ []) (hrange : ∀ check ∈ checks, check.InRange total) :
    let ovStart := layout.inputVirtualCount + layout.internalCount
    regroupChecks buildDecomposedBody gadget codes checks total =
      splitRows gadget.name info ovStart
        (matrixOf (outputFirst info.length ovStart) (info.length + ovStart)
          checks).echelonize.1 := by
  have hvalid : (checks.zipIdx.flatMap fun (check, checkIdx) =>
      check.members.map (checkIdx, ·)).find? (fun (_, idx) => idx < 0 ∨ total ≤ idx) = none := by
    rw [find?_eq_none]
    rintro ⟨checkIdx, idx⟩ hmem
    obtain ⟨⟨check, _⟩, hc, hmem⟩ := mem_flatMap.mp hmem
    obtain ⟨idx', hidx, heq⟩ := mem_map.mp hmem
    obtain ⟨rfl, rfl⟩ := Prod.mk.inj heq
    obtain ⟨h0, hlt⟩ := hrange check (fst_mem_of_mem_zipIdx hc) idx' hidx
    simp only [decide_eq_true_eq]
    omega
  unfold regroupChecks
  rw [hlayout, hinfo]
  dsimp only [bind, Except.bind]
  rw [if_neg (by omega), if_neg (by simpa using hports), hvalid]

theorem checks_normalForm (hlayout : computeLayout buildDecomposedBody gadget codes = .ok layout)
    (hinfo : outputVirtualInfo codes 0 gadget.body = .ok info)
    (htotal : total = layout.inputVirtualCount + layout.internalCount + info.length) :
    let ovStart := layout.inputVirtualCount + layout.internalCount
    let regrouped := fun checks => regroupChecks buildDecomposedBody gadget codes checks total
    (info = [] → ∀ checks, regrouped checks = .ok (checks, [])) ∧
      (info ≠ [] → ∀ checks, (∀ check ∈ checks, check.InRange total) →
        ((∃ groups, regrouped checks = .ok groups) ↔ (0, 1) ∉ spanOf checks ∧
          ∀ k, k < info.length → ∃ v ∈ spanOf checks, v.1 ((ovStart + k : ℕ) : ℤ) = 1 ∧
            ∀ j, j < info.length → j ≠ k → v.1 ((ovStart + j : ℕ) : ℤ) = 0) ∧
          ∀ finished unfinished, regrouped checks = .ok (finished, unfinished) →
            NormalForm info.length ovStart checks finished unfinished) ∧
      ∀ autoChecks manualChecks totalMeasurements,
        ((∃ result, mergeChecksWithManual autoChecks manualChecks totalMeasurements = .ok result) ↔
          (∀ check ∈ autoChecks, check.InRange totalMeasurements) ∧
            ∀ check ∈ manualChecks, check.vector ∈ spanOf autoChecks) ∧
          ∀ result, mergeChecksWithManual autoChecks manualChecks totalMeasurements = .ok result →
            ∃ added, result = manualChecks ++ added ∧ Extends autoChecks manualChecks added := by
  refine ⟨fun hports checks => ?_, fun hports checks hrange => ?_, mergeChecksWithManual_spec⟩
  · subst hports
    rw [length_nil] at htotal
    unfold regroupChecks
    rw [hlayout, hinfo]
    dsimp only [bind, Except.bind]
    rw [if_neg (by rw [length_nil]; omega), if_pos length_nil]
    rfl
  · have heq := regroupChecks_eq hlayout hinfo htotal hports hrange
    have hsum : total = info.length + (layout.inputVirtualCount + layout.internalCount) := by omega
    obtain ⟨hechelon, hspan⟩ := echelon_matrixOf (hsum ▸ hrange)
    dsimp only at heq ⊢
    rw [heq, ← hechelon.parity_mem_iff hspan, ← hechelon.pivots_iff hspan]
    refine ⟨⟨fun ⟨groups, hok⟩ => hechelon.pivots_of_splitRows_eq_ok hok, ?_⟩,
      fun finished unfinished hok => ?_⟩
    · rintro ⟨hparity, hpivots⟩
      exact ⟨_, hechelon.splitRows_eq_ok hparity hpivots⟩
    · obtain ⟨hparity, hpivots⟩ := hechelon.pivots_of_splitRows_eq_ok hok
      obtain ⟨rfl, rfl⟩ :=
        Prod.mk.inj (Except.ok.inj (hok.symm.trans (hechelon.splitRows_eq_ok hparity hpivots)))
      exact hechelon.normalForm hspan hpivots

end Regroup

/-- A gadget that measures once between two ports of a code. -/
def roundGadget : GadgetDefinition Unit where
  name := "Round"
  body := [.inputPort "Code", .other (), .outputPort "Code"]

def measuresOnce (_ : List (GadgetStatement Unit)) : Except CheckError ℕ :=
  .ok 1

theorem checks_normalForm_round : NormalForm 1 2 [⟨[0, 1], false⟩, ⟨[1, 2], true⟩]
    [⟨[0, 1], false⟩] [⟨[2, 1], true⟩] := by
  have hlayout : computeLayout measuresOnce roundGadget [("Code", ⟨["Z0"]⟩)] = .ok ⟨1, 1⟩ := rfl
  have hinfo : outputVirtualInfo [("Code", ⟨["Z0"]⟩)] 0 roundGadget.body =
      .ok [⟨"Code", 0, 0, "Z0"⟩] := rfl
  exact ((checks_normalForm hlayout hinfo rfl).2.1 (by simp) _ (by decide)).2 _ _ rfl

theorem regroupChecks_no_stabilizers :
    let regrouped := fun checks => regroupChecks measuresOnce roundGadget [("Code", ⟨[]⟩)] checks 1
    (∃ groups, regrouped [⟨[], true⟩] = .ok groups) ∧ (0, 1) ∈ spanOf [⟨[], true⟩] ∧
      regrouped [⟨[0], false⟩, ⟨[0], false⟩] = .ok ([⟨[0], false⟩, ⟨[0], false⟩], []) ∧
        ¬ Independent [⟨[0], false⟩, ⟨[0], false⟩] := by
  refine ⟨⟨_, rfl⟩, ?_, rfl, fun h => ?_⟩
  · have hmem : (⟨[], true⟩ : Check).vector ∈ spanOf [⟨[], true⟩] := vector_mem_spanOf (by simp)
    convert hmem using 1
    exact Prod.ext (funext fun z => by simp [Check.vector]) rfl
  · have heq : (0 : Fin 2) = 1 := h.injective rfl
    cases heq

end QdkEc.CheckNormalForm
