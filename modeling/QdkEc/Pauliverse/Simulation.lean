import QdkEc.Pauliverse.StateEncoder

/-!
# Simulations

This module collects the operations of the `Simulation` trait, says what each of
them does to a stabilizer machine, and gives the invariant of a state encoder
whose tableau may be larger than the number of qubits in use.
-/

namespace QdkEc

open PhasedPauli PauliUnitary

/-- The least power of two that is not below a number. -/
def nextPowerOfTwo (n : ℕ) : ℕ :=
  if n ≤ 1 then 1 else 2 ^ ((n - 1).log2 + 1)

theorem le_nextPowerOfTwo (n : ℕ) : n ≤ nextPowerOfTwo n := by
  unfold nextPowerOfTwo
  split_ifs with h
  · exact h
  · have hlt : n - 1 < 2 ^ ((n - 1).log2 + 1) := Nat.lt_log2_self
    omega

theorem nextPowerOfTwo_le {n k : ℕ} (h : n ≤ 2 ^ k) : nextPowerOfTwo n ≤ 2 ^ k := by
  unfold nextPowerOfTwo
  split_ifs with hn
  · exact Nat.one_le_two_pow
  · have hlog : (n - 1).log2 < k := (Nat.log2_lt (by omega)).mpr (by omega)
    exact Nat.pow_le_pow_right (by decide) hlog

theorem exists_nextPowerOfTwo_eq (n : ℕ) : ∃ k, nextPowerOfTwo n = 2 ^ k := by
  unfold nextPowerOfTwo
  split_ifs
  · exact ⟨0, rfl⟩
  · exact ⟨_, rfl⟩

theorem nextPowerOfTwo_mono {m n : ℕ} (h : m ≤ n) : nextPowerOfTwo m ≤ nextPowerOfTwo n := by
  obtain ⟨k, hk⟩ := exists_nextPowerOfTwo_eq n
  rw [hk]
  apply nextPowerOfTwo_le
  rw [← hk]
  exact h.trans (le_nextPowerOfTwo n)

/-- The number of qubits that an operation with the given highest qubit needs. -/
def qubitBound (maxQubitId : Option ℕ) : ℕ :=
  maxQubitId.elim 0 (· + 1)

theorem qubitBound_le_iff {maxQubitId : Option ℕ} {n : ℕ} :
    qubitBound maxQubitId ≤ n ↔ ∀ id ∈ maxQubitId, id < n := by
  cases maxQubitId <;> simp [qubitBound]

variable {op : CliffordOp}

namespace CliffordOp

/-- The highest qubit that an operation mentions. -/
def maxSupport : CliffordOp → Option ℕ
  | leftMul _ support => QdkEc.maxSupport support
  | leftMulPauli pauli => pauli.maxSupport
  | leftMulPauliExp pauli => pauli.maxSupport
  | leftMulControlledPauli control target => maxPairSupport control target
  | leftMulPermutation _ support => QdkEc.maxSupport support
  | leftMulClifford _ support => QdkEc.maxSupport support

theorem WellFormed.of_qubitBound_le {m n : ℕ} (h : op.WellFormed n)
    (hm : qubitBound op.maxSupport ≤ m) : op.WellFormed m := by
  rw [qubitBound_le_iff] at hm
  cases op with
  | leftMul unitaryOp support =>
    rcases h with h | ⟨hlen, hnodup, _⟩
    · exact Or.inl h
    · exact Or.inr ⟨hlen, hnodup, maxSupport_lt_iff.mp hm⟩
  | leftMulPauli pauli => exact below_iff_maxSupport.mpr hm
  | leftMulPauliExp pauli => exact ⟨below_iff_maxSupport.mpr hm, h.2⟩
  | leftMulControlledPauli control target =>
    obtain ⟨hc, ht⟩ := maxPairSupport_lt_iff.mp hm
    exact ⟨⟨hc, h.1.2⟩, ⟨ht, h.2.1.2⟩, h.2.2⟩
  | leftMulPermutation permutation support => exact ⟨h.1, h.2.1, h.2.2.1, maxSupport_lt_iff.mp hm⟩
  | leftMulClifford clifford support => exact ⟨h.1, h.2.1, maxSupport_lt_iff.mp hm⟩

theorem conjugation_generators {n : ℕ} (hop : op.WellFormed n) (i : ℕ) (hi : n ≤ i) :
    op.conjugation (X i) = X i ∧ op.conjugation (Z i) = Z i := by
  obtain ⟨C', happly⟩ := exists_apply_eq_some hop (CliffordUnitary.identity n)
  have hfollows := follows_apply (CliffordUnitary.validOn_identity n) hop happly
  have hlift : ∀ p, C'.frame.lift (op.conjugation p) = p := by
    intro p
    rw [hfollows.lift_map, CliffordUnitary.frame_identity, GeneratorFrame.lift_identity]
  have hn : C'.numQubits = n := by rw [numQubits_apply happly, CliffordUnitary.numQubits_identity]
  obtain ⟨hx, hz⟩ := C'.fixesFrom_frame i (by omega)
  constructor
  · apply hfollows.valid.lift_injective
    rw [hlift, GeneratorFrame.lift_X, hx]
  · apply hfollows.valid.lift_injective
    rw [hlift, GeneratorFrame.lift_Z, hz]

end CliffordOp

/-- The operations of a simulation. -/
inductive SimulationOp where
  | unitary (op : CliffordOp)
  | conditionalPauli (observable : PauliUnitary) (outcomes : List ℕ) (parity : Bool)
  | measure (observable : PauliUnitary)
  | measureWithHint (observable hint : PauliUnitary)
  | allocateRandomBit

namespace SimulationOp

/-- The highest qubit that an operation mentions. -/
def maxSupport : SimulationOp → Option ℕ
  | unitary op => op.maxSupport
  | conditionalPauli observable _ _ => observable.maxSupport
  | measure observable => observable.maxSupport
  | measureWithHint observable hint => maxPairSupport observable hint
  | allocateRandomBit => none

/-- The number of outcomes that an operation records. -/
def outcomeCount : SimulationOp → ℕ
  | unitary _ => 0
  | conditionalPauli _ _ _ => 0
  | measure _ => 1
  | measureWithHint _ _ => 1
  | allocateRandomBit => 1

/-- The arguments of an operation meet its preconditions when some outcomes are recorded. -/
def WellFormed (recorded : ℕ) : SimulationOp → Prop
  | unitary op => op.WellFormed (qubitBound op.maxSupport)
  | conditionalPauli _ outcomes _ => ∀ id ∈ outcomes, id < recorded
  | measure observable => observable.isOrderTwo = true
  | measureWithHint observable hint =>
    observable.isOrderTwo = true ∧ observable.antiCommutesWith hint = true
  | allocateRandomBit => True

instance (recorded : ℕ) (op : SimulationOp) : Decidable (op.WellFormed recorded) :=
  match op with
  | unitary op => inferInstanceAs (Decidable (op.WellFormed _))
  | conditionalPauli _ outcomes _ => inferInstanceAs (Decidable (∀ id ∈ outcomes, id < recorded))
  | measure observable => inferInstanceAs (Decidable (observable.isOrderTwo = true))
  | measureWithHint _ _ => inferInstanceAs (Decidable (_ ∧ _))
  | allocateRandomBit => inferInstanceAs (Decidable True)

/-- What an operation does to a stabilizer machine; a hint does not matter. -/
noncomputable def step (bits : ℕ → Bool) (m : StabilizerMachine) :
    SimulationOp → StabilizerMachine
  | unitary op => m.applyMap op.conjugation
  | conditionalPauli observable outcomes parity =>
    m.conditionalPauli observable.toPhased outcomes parity
  | measure observable => m.measure bits observable.toPhased
  | measureWithHint observable _ => m.measure bits observable.toPhased
  | allocateRandomBit => m.allocateRandomBit bits

/-- Every operation of a circuit meets its preconditions when its turn comes. -/
def WellFormedFrom : ℕ → List SimulationOp → Prop
  | _, [] => True
  | recorded, op :: ops => op.WellFormed recorded ∧ WellFormedFrom (recorded + op.outcomeCount) ops

instance decidableWellFormedFrom :
    ∀ (recorded : ℕ) (ops : List SimulationOp), Decidable (WellFormedFrom recorded ops)
  | _, [] => inferInstanceAs (Decidable True)
  | recorded, op :: ops =>
    have := decidableWellFormedFrom (recorded + op.outcomeCount) ops
    inferInstanceAs (Decidable (_ ∧ _))

end SimulationOp

namespace SimulationOp

theorem length_step (bits : ℕ → Bool) (m : StabilizerMachine) (op : SimulationOp) :
    (op.step bits m).introducesBranchBit.length =
      m.introducesBranchBit.length + op.outcomeCount := by
  have hmeasure : ∀ P, (m.measure bits P).introducesBranchBit.length =
      m.introducesBranchBit.length + 1 := by
    intro P
    unfold StabilizerMachine.measure
    split_ifs <;> simp [StabilizerMachine.record, StabilizerMachine.allocateRandomBit]
  cases op with
  | unitary op => rfl
  | conditionalPauli observable outcomes parity =>
    simp only [step, StabilizerMachine.conditionalPauli]
    split_ifs <;> rfl
  | measure observable => exact hmeasure _
  | measureWithHint observable hint => exact hmeasure _
  | allocateRandomBit =>
    simp [step, StabilizerMachine.allocateRandomBit, StabilizerMachine.record, outcomeCount]

/-- The machine after a circuit. -/
noncomputable def steps (bits : ℕ → Bool) (ops : List SimulationOp) (m : StabilizerMachine) :
    StabilizerMachine :=
  ops.foldl (fun m op => op.step bits m) m

/-- A conditional Pauli acts on qubits in use only. -/
def InUse (n : ℕ) : SimulationOp → Prop
  | conditionalPauli observable _ _ => observable.Below n
  | _ => True

instance (n : ℕ) (op : SimulationOp) : Decidable (op.InUse n) :=
  match op with
  | unitary _ => inferInstanceAs (Decidable True)
  | conditionalPauli observable _ _ => inferInstanceAs (Decidable (observable.Below n))
  | measure _ => inferInstanceAs (Decidable True)
  | measureWithHint _ _ => inferInstanceAs (Decidable True)
  | allocateRandomBit => inferInstanceAs (Decidable True)

/-- Every conditional Pauli of a circuit acts on qubits in use when its turn comes. -/
def InUseFrom : ℕ → List SimulationOp → Prop
  | _, [] => True
  | n, op :: ops => op.InUse n ∧ InUseFrom (max n (qubitBound op.maxSupport)) ops

instance decidableInUseFrom :
    ∀ (n : ℕ) (ops : List SimulationOp), Decidable (InUseFrom n ops)
  | _, [] => inferInstanceAs (Decidable True)
  | n, op :: ops =>
    have := decidableInUseFrom (max n (qubitBound op.maxSupport)) ops
    inferInstanceAs (Decidable (_ ∧ _))

/-- The number of qubits in use after a circuit. -/
def qubitsInUse (n : ℕ) (ops : List SimulationOp) : ℕ :=
  ops.foldl (fun n op => max n (qubitBound op.maxSupport)) n

end SimulationOp

/-- The observable times a hint, with the phase that makes it a generator of order two. -/
def hintedPauli (observable hint preimage : PauliUnitary) : PauliUnitary :=
  (observable.mulAssignRight hint).addAssignPhaseExp (3 - preimage.xzPhaseExp)

namespace CliffordUnitary

/-- The tableau is valid and acts trivially beyond the qubits in use. -/
structure Encodes (qubitCount : ℕ) (C : CliffordUnitary) : Prop where
  frame : C.frame.Valid
  fixesFrom : C.frame.FixesFrom qubitCount
  le : qubitCount ≤ C.numQubits

theorem encodes_identity (n : ℕ) : (identity n).Encodes n := by
  refine ⟨?_, ?_, ?_⟩
  · rw [frame_identity]
    exact GeneratorFrame.valid_identity
  · rw [frame_identity]
    exact fun i _ => ⟨rfl, rfl⟩
  · rw [numQubits_identity]

theorem Encodes.mono {m n : ℕ} {C : CliffordUnitary} (h : C.Encodes m) (hmn : m ≤ n)
    (hn : n ≤ C.numQubits) : C.Encodes n :=
  ⟨h.frame, h.fixesFrom.mono hmn, hn⟩

theorem Encodes.resize {m n newQubitCount : ℕ} {C C' : CliffordUnitary} (h : C.Encodes m)
    (hlt : C.numQubits < newQubitCount) (hresize : C.resize newQubitCount = some C') (hmn : m ≤ n)
    (hn : n ≤ newQubitCount) :
    C'.Encodes n ∧ C'.numQubits = newQubitCount ∧ C'.frame = C.frame := by
  obtain ⟨D, hD, hcount, hframe⟩ := resize_of_lt h.frame hlt
  obtain rfl := Option.some_inj.mp (hresize.symm.trans hD)
  refine ⟨⟨?_, ?_, by omega⟩, hcount, hframe⟩
  · rw [hframe]
    exact h.frame
  · rw [hframe]
    exact h.fixesFrom.mono hmn

theorem Encodes.apply {n : ℕ} {C : CliffordUnitary} (h : C.Encodes n)
    (hop : op.WellFormed n) (hbound : qubitBound op.maxSupport ≤ n) :
    ∃ C', op.apply C = some C' ∧ C'.Encodes n ∧ C'.frame.Follows C.frame op.conjugation ∧
      C'.numQubits = C.numQubits := by
  have hwide : op.WellFormed C.numQubits := hop.of_qubitBound_le (hbound.trans h.le)
  obtain ⟨C', happly⟩ := CliffordOp.exists_apply_eq_some hwide C
  have hfollows := CliffordOp.follows_apply (validOn_of_frame h.frame) hwide happly
  have hcount := CliffordOp.numQubits_apply happly
  refine ⟨C', happly, ⟨hfollows.valid, ?_, ?_⟩, hfollows, hcount⟩
  · exact hfollows.fixesFrom h.fixesFrom (CliffordOp.conjugation_generators hop)
  · rw [hcount]
    exact h.le

theorem head?_support_eq_none_iff {b : Bits} : b.support.head? = none ↔ b = 0 := by
  constructor
  · intro h
    have hnil := List.head?_eq_none_iff.mp h
    rw [← Bits.ofList_support b, hnil, Bits.ofList_nil]
  · rintro rfl
    simp

theorem index_of_head?_support {b : Bits} {i : ℕ} (h : b.support.head? = some i) :
    b.index i = true :=
  Bits.mem_support.mp (List.mem_of_head? h)

section Measurement

variable {n : ℕ} {C : CliffordUnitary} (h : C.Encodes n) {observable : PauliUnitary}
variable (hp : observable.Below n)

include h hp

theorem Encodes.below : observable.Below C.numQubits :=
  hp.mono h.le

theorem Encodes.toPhased_preimage :
    (C.assignCliffordPreimage observable).toPhased = C.frame.lift observable.toPhased :=
  toPhased_assignCliffordPreimage (h.below hp)

theorem Encodes.determined_iff (hp2 : observable.toPhased.OrderTwo) (σ : Bits) :
    Determined (C.frame.stabilizers σ) observable.toPhased ↔
      (C.assignCliffordPreimage observable).xBits.support.head? = none := by
  rw [head?_support_eq_none_iff, ← toPhased_xBits, h.toPhased_preimage hp]
  exact h.frame.exists_sign_mem_stabilizers_iff hp2

theorem Encodes.sign_mul_mem_iff (hp2 : observable.toPhased.OrderTwo) (σ : Bits)
    (hnone : (C.assignCliffordPreimage observable).xBits.support.head? = none) (b : Bool) :
    iPow (twist b) * observable.toPhased ∈ C.frame.stabilizers σ ↔
      b = ((phaseValue (C.assignCliffordPreimage observable).xzPhaseExp == 2) ^^
        Bits.dot (C.assignCliffordPreimage observable).zBits σ) := by
  have hpre := h.toPhased_preimage hp
  have hx : (C.frame.lift observable.toPhased).xBits = 0 := by
    rw [← hpre]
    exact head?_support_eq_none_iff.mp hnone
  obtain ⟨c, hc⟩ := h.frame.exists_phase_eq_twist hp2 hx
  have hvalue :
      (phaseValue (C.assignCliffordPreimage observable).xzPhaseExp == 2) = c := by
    rw [← hpre, toPhased_phase] at hc
    rw [phaseValue_eq_two_iff, hc]
    cases c <;> decide
  rw [h.frame.sign_mul_mem_stabilizers_iff hc, hvalue, ← hpre, toPhased_zBits]
  exact and_iff_right (by rw [hpre]; exact hx)

section Pivot

variable {pivot : ℕ}
variable (hpivot : (C.assignCliffordPreimage observable).xBits.support.head? = some pivot)

include hpivot

theorem Encodes.pivot_index : (C.frame.lift observable.toPhased).xBits.index pivot = true := by
  rw [← h.toPhased_preimage hp]
  exact index_of_head?_support hpivot

theorem Encodes.pivot_lt : pivot < n := by
  have hbelow : (C.frame.lift observable.toPhased).Below n :=
    (h.frame.below_lift_iff h.fixesFrom).mpr hp
  exact hbelow.1.lt_of_index (h.pivot_index hp hpivot)

theorem Encodes.lift_imageZ_pivot : C.frame.lift (C.imageZ pivot).toPhased = Z pivot :=
  toPhased_imageZ h.frame (lt_of_lt_of_le (h.pivot_lt hp hpivot) h.le)

theorem Encodes.anti_imageZ_pivot : anti (C.imageZ pivot).toPhased observable.toPhased = true := by
  rw [← h.frame.anti_lift, h.lift_imageZ_pivot hp hpivot, anti_Z_left]
  exact h.pivot_index hp hpivot

theorem Encodes.orderTwo_imageZ_pivot : (C.imageZ pivot).toPhased.OrderTwo := by
  apply h.frame.orderTwo_of_lift
  rw [h.lift_imageZ_pivot hp hpivot]
  exact orderTwo_Z pivot

theorem Encodes.imageZ_pivot_mem (σ : Bits) :
    iPow (twist (σ.index pivot)) * (C.imageZ pivot).toPhased ∈ C.frame.stabilizers σ := by
  have hmem := h.frame.sign_mul_mem_of_lift (σ := σ) (z := Bits.unit pivot)
    (h.lift_imageZ_pivot hp hpivot)
  rwa [Bits.dot_unit_left] at hmem

theorem Encodes.image_collapse (hp2 : observable.toPhased.OrderTwo) (σ : Bits) (flip : Bool) :
    collapse observable.toPhased (C.imageZ pivot).toPhased flip '' C.frame.stabilizers σ =
      measured (C.frame.stabilizers σ) observable.toPhased (flip ^^ σ.index pivot) :=
  h.frame.image_collapse_stabilizers (h.anti_imageZ_pivot hp hpivot) h.fixesFrom hp2
    (h.orderTwo_imageZ_pivot hp hpivot) (h.imageZ_pivot_mem hp hpivot σ) flip

theorem Encodes.updateEncoder (hp2 : observable.toPhased.OrderTwo) (outcome : Bool) :
    let C' := C.updateEncoderForRandomOutcome observable (C.assignCliffordPreimage observable)
      pivot outcome
    C'.Encodes n ∧ C'.frame.Follows C.frame
      (collapse observable.toPhased (C.imageZ pivot).toPhased outcome) := by
  have hanti := h.anti_imageZ_pivot hp hpivot
  have hfollows := follows_updateEncoderForRandomOutcome h.frame (h.below hp) hp2
    (lt_of_lt_of_le (h.pivot_lt hp hpivot) h.le) hanti outcome
  refine ⟨⟨hfollows.valid, ?_, ?_⟩, hfollows⟩
  · refine hfollows.fixesFrom h.fixesFrom fun i hi => ?_
    have hN : (C.imageZ pivot).toPhased.Below n := by
      rw [← h.frame.below_lift_iff h.fixesFrom, h.lift_imageZ_pivot hp hpivot]
      exact below_Z.mpr (h.pivot_lt hp hpivot)
    have hPx : observable.zBits.index i = false := hp.2.index_eq_false hi
    have hPz : observable.xBits.index i = false := hp.1.index_eq_false hi
    have hNx := hN.2.index_eq_false hi
    have hNz := hN.1.index_eq_false hi
    rw [collapse_eq hanti, collapse_eq hanti, anti_X_right, anti_X_right, anti_Z_right,
      anti_Z_right, hNx, hNz, toPhased_zBits, toPhased_xBits, hPx, hPz]
    simp
  · rw [numQubits_updateEncoderForRandomOutcome]
    exact h.le

end Pivot

section Hint

variable {hint : PauliUnitary} (hh : hint.Below n)
variable (hanti : observable.antiCommutesWith hint = true)
variable (hnone : (C.preimage hint).xBits.support.head? = none)

/-- The hint without the phase of its preimage. -/
def hintStabilizer (C : CliffordUnitary) (hint : PauliUnitary) : PhasedPauli :=
  iPow (-PauliUnitary.phaseResidue (C.preimage hint).xzPhaseExp) * hint.toPhased

omit h hp in
theorem toPhased_hintedPauli : (hintedPauli observable hint (C.preimage hint)).toPhased =
      iPow 3 * (observable.toPhased * C.hintStabilizer hint) := by
  have hthree : PauliUnitary.phaseResidue 3 = 3 := rfl
  rw [hintedPauli, toPhased_addAssignPhaseExp, toPhased_mulAssignRight,
    phaseResidue_sub, hthree, hintStabilizer, mul_iPow_mul, ← mul_assoc (iPow 3),
    ← iPow_add, sub_eq_add_neg]

omit hp in
include hh hnone in
theorem Encodes.lift_hintStabilizer :
    C.frame.lift (C.hintStabilizer hint) = zProduct (C.preimage hint).zBits := by
  have hx : (C.preimage hint).xBits = 0 := head?_support_eq_none_iff.mp hnone
  rw [hintStabilizer, h.frame.lift_iPow_mul, ← CliffordUnitary.toPhased_preimage (hh.mono h.le)]
  ext1
  · simp [zProduct]
  · simp [zProduct, hx]
  · simp [zProduct]

omit h hp in
include hanti in
theorem anti_hintStabilizer : anti (C.hintStabilizer hint) observable.toPhased = true := by
  rw [hintStabilizer, anti_mul_left, anti_iPow_left, Bool.false_xor, anti_comm]
  exact hanti

omit hp in
include hh hnone in
theorem Encodes.orderTwo_hintStabilizer : (C.hintStabilizer hint).OrderTwo := by
  apply h.frame.orderTwo_of_lift
  rw [h.lift_hintStabilizer hh hnone, orderTwo_iff_phase]
  simp [zProduct]

omit hp in
include hh hnone in
theorem Encodes.hintStabilizer_mem (σ : Bits) :
    iPow (twist (Bits.dot (C.preimage hint).zBits σ)) * C.hintStabilizer hint ∈
      C.frame.stabilizers σ :=
  h.frame.sign_mul_mem_of_lift (h.lift_hintStabilizer hh hnone)

include hh hnone hanti in
theorem Encodes.wellFormed_hintedPauli (hp2 : observable.toPhased.OrderTwo) :
    (CliffordOp.leftMulPauliExp (hintedPauli observable hint (C.preimage hint))).WellFormed n := by
  refine ⟨⟨hp.1.add hh.1, hp.2.add hh.2⟩, isOrderTwo_iff.mpr ?_⟩
  rw [toPhased_hintedPauli]
  exact orderTwo_collapse (anti_hintStabilizer hanti) hp2 (h.orderTwo_hintStabilizer hh hnone)

omit hp in
include hh hnone hanti in
theorem Encodes.image_collapse_hint (hp2 : observable.toPhased.OrderTwo) (σ : Bits) (flip : Bool) :
    collapse observable.toPhased (C.hintStabilizer hint) flip '' C.frame.stabilizers σ =
      measured (C.frame.stabilizers σ) observable.toPhased
        (flip ^^ Bits.dot (C.preimage hint).zBits σ) :=
  h.frame.image_collapse_stabilizers (anti_hintStabilizer hanti) h.fixesFrom hp2
    (h.orderTwo_hintStabilizer hh hnone) (h.hintStabilizer_mem hh hnone σ) flip

omit hp in
include hh hnone hanti in
theorem Encodes.not_determined_of_hint (σ : Bits) :
    ¬ Determined (C.frame.stabilizers σ) observable.toPhased := by
  rintro ⟨b, hb⟩
  have hcomm := (h.frame.isStabilizerGroup h.fixesFrom σ).commutes _
    (h.frame.mem_stabilizerGroup.mpr (h.hintStabilizer_mem hh hnone σ)) _
    (h.frame.mem_stabilizerGroup.mpr hb)
  simp [anti_hintStabilizer hanti] at hcomm

end Hint

end Measurement

end CliffordUnitary

end QdkEc
