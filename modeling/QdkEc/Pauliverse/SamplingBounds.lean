import QdkEc.Lib.OptionTraversal
import QdkEc.Pauliverse.FaultySimulation

/-!
# Indices of sampling

This module proves when sampling a faulty simulation stays in the range of its frames.
The rows of recorded operations are there, since the noiseless simulation has performed
the same operations.  Nothing checks the qubits of faults, and the noiseless simulation
accepts a conditional Pauli on an outcome that is not recorded while its matrices have
room for it.
-/

namespace QdkEc

open List PauliUnitary

/-- A simulation has recorded some more outcomes, and no qubit was taken out of use. -/
structure OutcomeCompleteSimulation.Grows (before after : OutcomeCompleteSimulation) (outcomes : ℕ)
    (maxQubitId : Option ℕ) :
    Prop where
  outcomeCount : after.outcomeCount = before.outcomeCount + outcomes
  qubitCount : max before.qubitCount (qubitBound maxQubitId) ≤ after.qubitCount

namespace OutcomeCompleteSimulation

variable {c c' c'' : OutcomeCompleteSimulation}

theorem Grows.refl (c : OutcomeCompleteSimulation) : c.Grows c 0 none :=
  ⟨rfl, by simp [qubitBound]⟩

variable {maxQubitId : Option ℕ} {outcomes : ℕ}

/-- What is recorded after a step that records nothing. -/
theorem Grows.trans (h : c.Grows c' 0 maxQubitId) (h' : c'.Grows c'' outcomes none) :
    c.Grows c'' outcomes maxQubitId where
  outcomeCount := by rw [h'.outcomeCount, h.outcomeCount, Nat.add_zero]
  qubitCount := h.qubitCount.trans ((le_max_left _ _).trans h'.qubitCount)

theorem Grows.weaken (h : c.Grows c' outcomes maxQubitId) : c.Grows c' outcomes none where
  outcomeCount := h.outcomeCount
  qubitCount := max_le ((le_max_left _ _).trans h.qubitCount) (Nat.zero_le _)

theorem Grows.xorSigns (h : c.Grows c' outcomes maxQubitId) (rows : List ℕ) (indicator : Bits) :
    c.Grows (c'.xorSigns rows indicator) outcomes maxQubitId :=
  ⟨h.outcomeCount, h.qubitCount⟩

theorem grows_reserveQubits {newCapacity : ℕ} (h : c.reserveQubits newCapacity = some c') :
    c.Grows c' 0 none := by
  rw [reserveQubits] at h
  split at h
  · obtain ⟨clifford, -, h⟩ := Option.bind_eq_some_iff.mp h
    cases h
    exact ⟨rfl, by simp [qubitBound]⟩
  · cases h
    exact .refl c

theorem grows_reserveOutcomes {newOutcomeCapacity newBranchBitCapacity : ℕ}
    (h : c.reserveOutcomes newOutcomeCapacity newBranchBitCapacity = some c') :
    c.Grows c' 0 none := by
  rw [reserveOutcomes] at h
  split at h
  · cases h
    exact ⟨rfl, by simp [qubitBound]⟩
  · cases h

theorem grows_ensureQubitCapacity (h : c.ensureQubitCapacity maxQubitId = some c') :
    c.Grows c' 0 maxQubitId := by
  cases maxQubitId with
  | none =>
    cases h
    exact .refl c
  | some id =>
    rw [ensureQubitCapacity] at h
    have hused : c.Grows { c with qubitCount := max c.qubitCount (id + 1) } 0 (some id) :=
      ⟨rfl, le_rfl⟩
    split at h
    · exact hused.trans (grows_reserveQubits h)
    · cases h
      exact hused

theorem grows_applyClifford {op : CliffordOp} (h : c.applyClifford op = some c') :
    c.Grows c' 0 none := by
  obtain ⟨clifford, -, h⟩ := Option.bind_eq_some_iff.mp h
  cases h
  exact ⟨rfl, by simp [qubitBound]⟩

theorem grows_unitary {op : CliffordOp} (h : c.unitary op = some c') :
    c.Grows c' 0 op.maxSupport := by
  obtain ⟨middle, hmiddle, h⟩ := Option.bind_eq_some_iff.mp h
  exact (grows_ensureQubitCapacity hmiddle).trans (grows_applyClifford h)

theorem grows_allocateBranchBit {location : BranchBitLocation}
    (h : c.allocateBranchBit = some (c', location)) : c.Grows c' 1 none := by
  obtain ⟨middle, hmiddle, h⟩ := Option.bind_eq_some_iff.mp h
  cases h
  refine (grows_reserveOutcomes hmiddle).trans ⟨?_, ?_⟩
  · simp [outcomeCount]
  · simp [qubitBound]

theorem grows_conditionalPauli {observable : PauliUnitary} {outcomes : List ℕ} {parity : Bool}
    (h : c.conditionalPauli observable outcomes parity = some c') :
    c.Grows c' 0 observable.maxSupport := by
  obtain ⟨middle, hmiddle, h⟩ := Option.bind_eq_some_iff.mp h
  obtain ⟨control, -, h⟩ := Option.bind_eq_some_iff.mp h
  refine (grows_ensureQubitCapacity hmiddle).trans ?_
  split at h
  · obtain ⟨last, hlast, h⟩ := Option.bind_eq_some_iff.mp h
    cases h
    exact (grows_unitary hlast).weaken.xorSigns _ _
  · obtain ⟨last, hlast, h⟩ := Option.bind_eq_some_iff.mp h
    cases hlast
    cases h
    exact (Grows.refl middle).xorSigns _ _

theorem grows_measure {observable : PauliUnitary} (h : c.measure observable = some c') :
    c.Grows c' 1 observable.maxSupport := by
  obtain ⟨middle, hmiddle, h⟩ := Option.bind_eq_some_iff.mp h
  refine (grows_ensureQubitCapacity hmiddle).trans ?_
  dsimp only at h
  split at h
  · obtain ⟨⟨last, location⟩, hlast, h⟩ := Option.bind_eq_some_iff.mp h
    cases h
    obtain ⟨houtcomes, hqubits⟩ := grows_allocateBranchBit hlast
    exact ⟨houtcomes, hqubits⟩
  · obtain ⟨last, hlast, h⟩ := Option.bind_eq_some_iff.mp h
    cases h
    refine (grows_reserveOutcomes hlast).trans ⟨?_, ?_⟩
    · simp [outcomeCount]
    · simp [qubitBound]

theorem grows_measureWithHint {observable hint : PauliUnitary}
    (h : c.measureWithHint observable hint = some c') :
    c.Grows c' 1 (maxPairSupport observable hint) := by
  obtain ⟨middle, hmiddle, h⟩ := Option.bind_eq_some_iff.mp h
  refine (grows_ensureQubitCapacity hmiddle).trans ?_
  split at h
  · dsimp only at h
    split at h
    · exact (grows_measure h).weaken
    · obtain ⟨rotated, hrotated, h⟩ := Option.bind_eq_some_iff.mp h
      obtain ⟨⟨last, location⟩, hlast, h⟩ := Option.bind_eq_some_iff.mp h
      cases h
      exact ((grows_unitary hrotated).weaken.trans (grows_allocateBranchBit hlast)).xorSigns _ _
  · cases h

theorem grows_apply {op : SimulationOp} (h : c.apply op = some c') :
    c.Grows c' op.outcomeCount op.maxSupport := by
  cases op with
  | unitary op => exact grows_unitary h
  | conditionalPauli observable outcomes parity => exact grows_conditionalPauli h
  | measure observable => exact grows_measure h
  | measureWithHint observable hint => exact grows_measureWithHint h
  | allocateRandomBit =>
    obtain ⟨⟨last, location⟩, hlast, rfl⟩ := Option.map_eq_some_iff.mp h
    exact grows_allocateBranchBit hlast

end OutcomeCompleteSimulation

theorem PauliUnitary.forall_mem_qubits_iff {pauli : PauliUnitary} {n : ℕ} :
    (∀ qubit ∈ pauli.qubits, qubit < n) ↔ pauli.Below n := by
  change _ ↔ pauli.xBits.Below n ∧ pauli.zBits.Below n
  simp only [PauliUnitary.qubits, mem_append, Bits.mem_support, or_imp, forall_and, Bits.below_iff]
  refine and_congr ?_ ?_ <;>
    exact forall_congr' fun i => ⟨fun h hle => by_contra fun hindex =>
      absurd (h (by simpa using hindex)) (by omega), fun h hindex => by_contra fun hlt => by
        simp [h (by omega)] at hindex⟩

theorem SimulationOp.lt_of_mem_frameRows {op : SimulationOp} {outcomeId qubit n : ℕ}
    (hqubit : qubit ∈ (op.instruction outcomeId).frameRows) (hn : qubitBound op.maxSupport ≤ n) :
    qubit < n := by
  rw [qubitBound_le_iff] at hn
  cases op with
  | unitary op =>
    cases op with
    | leftMul unitaryOp support =>
      refine maxSupport_lt_iff.mp hn qubit ?_
      have hgate : qubit ∈ gateQubits unitaryOp support := hqubit
      cases unitaryOp
      all_goals first
        | exact absurd hgate not_mem_nil
        | exact mem_of_mem_take hgate
    | leftMulPauli pauli => exact absurd hqubit not_mem_nil
    | leftMulPauliExp pauli =>
      exact forall_mem_qubits_iff.mpr (below_iff_maxSupport.mpr hn)
        qubit hqubit
    | leftMulControlledPauli control target =>
      obtain ⟨hcontrol, htarget⟩ := maxPairSupport_lt_iff.mp hn
      rcases mem_append.mp hqubit with hqubit | hqubit
      · exact forall_mem_qubits_iff.mpr hcontrol qubit hqubit
      · exact forall_mem_qubits_iff.mpr htarget qubit hqubit
    | leftMulPermutation permutation support => exact maxSupport_lt_iff.mp hn qubit hqubit
    | leftMulClifford clifford support => exact maxSupport_lt_iff.mp hn qubit hqubit
  | conditionalPauli observable outcomes parity =>
    exact forall_mem_qubits_iff.mpr (below_iff_maxSupport.mpr hn)
      qubit hqubit
  | measure observable =>
    exact forall_mem_qubits_iff.mpr (below_iff_maxSupport.mpr hn)
      qubit hqubit
  | measureWithHint observable hint =>
    exact forall_mem_qubits_iff.mpr (maxPairSupport_lt_iff.mp hn).1 qubit hqubit
  | allocateRandomBit => exact absurd hqubit not_mem_nil

theorem SimulationOp.outcomeCount_instruction (op : SimulationOp) (outcomeId : ℕ) :
    (op.instruction outcomeId).outcomeCount = op.outcomeCount := by
  cases op with
  | unitary op => cases op <;> rfl
  | conditionalPauli observable outcomes parity => rfl
  | measure observable => rfl
  | measureWithHint observable hint => rfl
  | allocateRandomBit => rfl

/-- The number of outcomes that an instruction of a circuit with faults records. -/
def FaultyInstruction.outcomeCount {K : Type} : FaultyInstruction K → ℕ
  | .op instruction => instruction.outcomeCount
  | .noise _ => 0

/-- The qubits of the recorded operations are in use, and their outcomes are recorded. -/
structure FaultySimulation.Recorded {K : Type} (simulation : FaultySimulation K) : Prop where
  frameRows : ∀ instruction, .op instruction ∈ simulation.circuit →
    ∀ qubit ∈ instruction.frameRows, qubit < simulation.noiseless.qubitCount
  outcomeCount : (simulation.circuit.map FaultyInstruction.outcomeCount).sum =
    simulation.noiseless.outcomeCount

namespace FaultySimulation

variable {K : Type} {simulation after : FaultySimulation K}

theorem Recorded.of_grows (h : simulation.Recorded) {noiseless : OutcomeCompleteSimulation}
    (hgrows : simulation.noiseless.Grows noiseless 0 none) :
    Recorded { simulation with noiseless := noiseless } where
  frameRows instruction hmem qubit hqubit := (h.frameRows instruction hmem qubit hqubit).trans_le
    ((le_max_left _ _).trans hgrows.qubitCount)
  outcomeCount := by rw [hgrows.outcomeCount, h.outcomeCount, Nat.add_zero]

theorem Recorded.apply (h : simulation.Recorded) {call : FaultyCall K}
    (happly : simulation.apply call = some after) : after.Recorded := by
  cases call with
  | op op =>
    obtain ⟨noiseless, hnoiseless, rfl⟩ := Option.map_eq_some_iff.mp happly
    have hgrows := OutcomeCompleteSimulation.grows_apply hnoiseless
    refine ⟨fun instruction hmem qubit hqubit => ?_, ?_⟩
    · rcases mem_append.mp hmem with hmem | hmem
      · exact (h.frameRows instruction hmem qubit hqubit).trans_le
          ((le_max_left _ _).trans hgrows.qubitCount)
      · cases mem_singleton.mp hmem
        exact SimulationOp.lt_of_mem_frameRows hqubit
          ((le_max_right _ _).trans hgrows.qubitCount)
    · rw [map_append, sum_append, h.outcomeCount, hgrows.outcomeCount,
        map_singleton, sum_singleton, FaultyInstruction.outcomeCount,
        SimulationOp.outcomeCount_instruction]
  | applyFault fault =>
    cases happly
    refine ⟨fun instruction hmem => h.frameRows instruction ?_, ?_⟩
    · rcases mem_append.mp hmem with hmem | hmem
      · exact hmem
      · cases mem_singleton.mp hmem
    · rw [map_append, sum_append, h.outcomeCount]
      rfl
  | reserveQubits newQubitCapacity =>
    obtain ⟨noiseless, hnoiseless, rfl⟩ := Option.map_eq_some_iff.mp happly
    exact h.of_grows (OutcomeCompleteSimulation.grows_reserveQubits hnoiseless)
  | reserveOutcomes newOutcomeCapacity newBranchBitCapacity =>
    obtain ⟨noiseless, hnoiseless, rfl⟩ := Option.map_eq_some_iff.mp happly
    exact h.of_grows (OutcomeCompleteSimulation.grows_reserveOutcomes hnoiseless)

theorem recorded_of_run {qubitCount outcomeCount branchBitCount : ℕ} {calls : List (FaultyCall K)}
    (hrun : run calls (withCapacity qubitCount outcomeCount branchBitCount) = some simulation) :
    simulation.Recorded := by
  refine foldlM_induction (fun _ simulation => simulation.Recorded) ⟨nofun, rfl⟩ ?_ hrun
  exact fun _ _ _ _ h happly => h.apply happly

end FaultySimulation

variable {qubits : List ℕ}

theorem mem_qubitsOfBits {bits bit qubit : ℕ} : qubit ∈ qubitsOfBits qubits bits bit ↔
      ∃ i, qubits[i]? = some qubit ∧ bits.testBit (2 * i + bit) = true := by
  simp only [qubitsOfBits, mem_map, mem_filter, Prod.exists, exists_and_right,
    exists_eq_right, mk_mem_zipIdx_iff_getElem?]

theorem mem_qubitsOfBits_sample {i qubit : ℕ} (hqubit : qubits[i]? = some qubit) :
    qubit ∈ qubitsOfBits qubits (sampleNonIdentityPauliBits qubits.length (4 ^ i - 1)) 0 := by
  obtain ⟨hlt, -⟩ := List.getElem?_eq_some_iff.mp hqubit
  have hpower : 4 ^ i < 4 ^ qubits.length := Nat.pow_lt_pow_right (by decide) hlt
  have hpos : 0 < 4 ^ i := Nat.pow_pos (by decide)
  have hbits : sampleNonIdentityPauliBits qubits.length (4 ^ i - 1) = 2 ^ (2 * i) := by
    have hsquare : 2 ^ (2 * i) = 4 ^ i := by rw [Nat.pow_mul]
    rw [sampleNonIdentityPauliBits, Nat.mod_eq_of_lt (by omega), hsquare]
    omega
  rw [mem_qubitsOfBits, hbits]
  exact ⟨i, hqubit, Nat.testBit_two_pow_self⟩

theorem mem_qubits_sampleDepolarizingPauli {word qubit : ℕ} :
    qubit ∈ (sampleDepolarizingPauli qubits word).qubits ↔
      qubit ∈ qubitsOfBits qubits (sampleNonIdentityPauliBits qubits.length word) 0 ++
        qubitsOfBits qubits (sampleNonIdentityPauliBits qubits.length word) 1 := by
  simp only [PauliUnitary.qubits, sampleDepolarizingPauli, mem_append, Bits.mem_support,
    Bits.index_fromIndices, decide_eq_true_eq]

section Mentions

variable {K : Type} [Field K] [LinearOrder K] [IsStrictOrderedRing K]
  (functions : SamplingFunctions K)

/-- A qubit is mentioned by a Pauli that a distribution can sample. -/
def PauliDistribution.Mentions (qubit : ℕ) :
    PauliDistribution K → Prop
  | .single pauli => qubit ∈ pauli.qubits
  | .depolarizingOnQubits qubits => qubit ∈ qubits
  | .uniformOver paulis => ∃ pauli ∈ paulis, qubit ∈ pauli.qubits
  | .weighted paulis cdf => ∃ uniform, ∃ pauli,
      paulis[min (functions.partitionPoint cdf uniform) (paulis.length - 1)]? = some pauli ∧
        qubit ∈ pauli.qubits

def Draw.ofWord (word : ℕ) : Draw K :=
  ⟨⟨0, le_rfl, zero_lt_one⟩, ⟨0, le_rfl, zero_lt_one⟩, word⟩

variable {functions}

theorem PauliDistribution.mentions_iff {distribution : PauliDistribution K} {qubit : ℕ} :
    distribution.Mentions functions qubit ↔ ∃ draw pauli,
      distribution.sample functions draw = some pauli ∧ qubit ∈ pauli.qubits := by
  cases distribution with
  | single pauli =>
    refine ⟨fun h => ⟨Draw.ofWord 0, pauli, rfl, h⟩, ?_⟩
    rintro ⟨draw, sampled, hsampled, h⟩
    cases hsampled
    exact h
  | depolarizingOnQubits qubits =>
    constructor
    · intro h
      obtain ⟨i, hi⟩ := getElem?_of_mem h
      refine ⟨Draw.ofWord (4 ^ i - 1), _, rfl, ?_⟩
      exact mem_qubits_sampleDepolarizingPauli.mpr
        (mem_append_left _ (mem_qubitsOfBits_sample hi))
    · rintro ⟨draw, pauli, hsampled, h⟩
      cases hsampled
      rcases mem_append.mp (mem_qubits_sampleDepolarizingPauli.mp h) with h | h
      · obtain ⟨i, hi, -⟩ := mem_qubitsOfBits.mp h
        exact List.mem_of_getElem? hi
      · obtain ⟨i, hi, -⟩ := mem_qubitsOfBits.mp h
        exact List.mem_of_getElem? hi
  | uniformOver paulis =>
    constructor
    · rintro ⟨pauli, hpauli, h⟩
      obtain ⟨i, hi⟩ := getElem?_of_mem hpauli
      refine ⟨Draw.ofWord i, pauli, ?_, h⟩
      rw [PauliDistribution.sample, Draw.ofWord,
        Nat.mod_eq_of_lt (List.getElem?_eq_some_iff.mp hi).1, hi]
    · rintro ⟨draw, pauli, hsampled, h⟩
      exact ⟨pauli, List.mem_of_getElem? hsampled, h⟩
  | weighted paulis cdf =>
    constructor
    · rintro ⟨uniform, pauli, hpauli, h⟩
      exact ⟨⟨⟨0, le_rfl, zero_lt_one⟩, uniform, 0⟩, pauli, hpauli, h⟩
    · rintro ⟨draw, pauli, hsampled, h⟩
      exact ⟨draw.uniform, pauli, hsampled, h⟩

variable {access : FrameAccess}

omit [IsStrictOrderedRing K] in
theorem PauliFault.mem_shotAccesses_iff {fault : PauliFault K} {draw : Draw K} {shot : ℕ} :
    access ∈ fault.shotAccesses functions draw shot ↔ ∃ pauli qubit,
      fault.distribution.sample functions draw = some pauli ∧ qubit ∈ pauli.qubits ∧
        access = .negate qubit shot := by
  have hgeneral : ∀ sampled : Option PauliUnitary,
      access ∈ sampled.elim [] (fun pauli => pauliAccesses pauli shot) ↔ ∃ pauli qubit,
        sampled = some pauli ∧ qubit ∈ pauli.qubits ∧ access = .negate qubit shot := by
    intro sampled
    cases sampled with
    | none => simp
    | some pauli => simp [pauliAccesses, eq_comm]
  rw [PauliFault.shotAccesses]
  split
  · rename_i qubits hcondition hdistribution
    rw [hdistribution, PauliDistribution.sample, depolarizingAccesses, mem_map]
    constructor
    · rintro ⟨qubit, hqubit, rfl⟩
      exact ⟨_, qubit, rfl, mem_qubits_sampleDepolarizingPauli.mpr hqubit, rfl⟩
    · rintro ⟨pauli, qubit, hpauli, hqubit, rfl⟩
      cases hpauli
      exact ⟨qubit, mem_qubits_sampleDepolarizingPauli.mp hqubit, rfl⟩
  · exact hgeneral _

/-- What a fault that can occur indexes is in range: the outcomes of its condition are recorded, and
when the condition holds in some branch, its qubits are in use. -/
def PauliFault.InRange (functions : SamplingFunctions K) (noiseless : OutcomeCompleteSimulation)
    (fault : PauliFault K) :
    Prop :=
  0 < fault.probability →
    (∀ condition ∈ fault.condition, ∀ id ∈ condition.outcomes, id < noiseless.outcomeCount) ∧
      ((∃ branch, occurs fault.condition (noiseless.outcomeVector branch) = true) →
        ∀ qubit, fault.distribution.Mentions functions qubit → qubit < noiseless.qubitCount)

variable {fault : PauliFault K} {noiseless : OutcomeCompleteSimulation}

omit [IsStrictOrderedRing K] in
theorem mem_injectNoise_succ {shotCount fuel round start : ℕ} {outcomes : ℕ → List Bool}
    {draws : ℕ → Draw K} :
    access ∈ injectNoise functions fault shotCount outcomes draws (fuel + 1) round start ↔
      start + functions.nextSkip fault.probability (draws round).skip < shotCount ∧
        (access ∈ conditionAccesses fault.condition
            (start + functions.nextSkip fault.probability (draws round).skip) ∨
          (occurs fault.condition (outcomes
              (start + functions.nextSkip fault.probability (draws round).skip)) = true ∧
            access ∈ fault.shotAccesses functions (draws round)
              (start + functions.nextSkip fault.probability (draws round).skip)) ∨
          access ∈ injectNoise functions fault shotCount outcomes draws fuel (round + 1)
            (start + functions.nextSkip fault.probability (draws round).skip + 1)) := by
  rw [injectNoise]
  split
  · rename_i hend
    exact iff_of_false not_mem_nil fun h => absurd h.1 (Nat.not_lt.mpr hend)
  · rename_i hshot
    rw [mem_append, mem_append, and_iff_right (Nat.lt_of_not_le hshot)]
    refine or_congr_right (or_congr_left ?_)
    split
    · rename_i hoccurs
      rw [and_iff_right hoccurs]
    · rename_i hoccurs
      exact iff_of_false not_mem_nil fun h => hoccurs h.1

theorem PauliFault.InRange.injectNoise (h : fault.InRange functions noiseless)
    (hprobability : 0 < fault.probability) {shotCount fuel round start : ℕ} {branches : ℕ → Bits}
    {draws : ℕ → Draw K} (hmem : access ∈ QdkEc.injectNoise functions fault shotCount
      (fun shot => noiseless.outcomeVector (branches shot)) draws fuel round start) :
    access.InRange noiseless.qubitCount noiseless.outcomeCount shotCount := by
  obtain ⟨hcondition, hqubits⟩ := h hprobability
  induction fuel generalizing round start with
  | zero => cases hmem
  | succ fuel ih =>
    obtain ⟨hshot, hmem⟩ := mem_injectNoise_succ.mp hmem
    rcases hmem with hmem | ⟨hoccurs, hmem⟩ | hmem
    · rw [conditionAccesses] at hmem
      rcases hnone : fault.condition with - | condition
      · rw [hnone] at hmem
        cases hmem
      · rw [hnone, Option.elim_some] at hmem
        obtain ⟨id, hid, rfl⟩ := mem_map.mp hmem
        exact ⟨hshot, hcondition condition hnone id hid⟩
    · obtain ⟨pauli, qubit, hsampled, hqubit, rfl⟩ := PauliFault.mem_shotAccesses_iff.mp hmem
      exact ⟨hqubits ⟨_, hoccurs⟩ qubit
        (PauliDistribution.mentions_iff.mpr ⟨_, pauli, hsampled, hqubit⟩), hshot⟩
    · exact ih hmem

theorem PauliFault.inRange_of_injectNoise
    (h : 0 < fault.probability → ∀ (branch : Bits) (draw : Draw K), ∀ access ∈
      QdkEc.injectNoise functions fault (functions.nextSkip fault.probability draw.skip + 1)
        (fun _ => noiseless.outcomeVector branch) (fun _ => draw)
        (functions.nextSkip fault.probability draw.skip + 2) 0 0,
      access.InRange noiseless.qubitCount noiseless.outcomeCount
        (functions.nextSkip fault.probability draw.skip + 1)) :
    fault.InRange functions noiseless := by
  refine fun hprobability => ⟨fun condition hsome id hid => ?_, ?_⟩
  · have hfirst : .noiselessOutcome
          (0 + functions.nextSkip fault.probability (Draw.ofWord 0 : Draw K).skip) id ∈
        conditionAccesses fault.condition
          (0 + functions.nextSkip fault.probability (Draw.ofWord 0 : Draw K).skip) := by
      rw [conditionAccesses, Option.mem_def.mp hsome, Option.elim_some]
      exact mem_map_of_mem hid
    have haccess := h hprobability 0 (Draw.ofWord 0) _
      (mem_injectNoise_succ.mpr ⟨by omega, .inl hfirst⟩)
    exact haccess.2
  · rintro ⟨branch, hoccurs⟩ qubit hmentions
    obtain ⟨draw, pauli, hsampled, hqubit⟩ := PauliDistribution.mentions_iff.mp hmentions
    have hfirst : .negate qubit (0 + functions.nextSkip fault.probability draw.skip) ∈
        fault.shotAccesses functions draw
          (0 + functions.nextSkip fault.probability draw.skip) :=
      PauliFault.mem_shotAccesses_iff.mpr ⟨pauli, qubit, hsampled, hqubit, rfl⟩
    have haccess := h hprobability branch draw _
      (mem_injectNoise_succ.mpr ⟨by omega, .inr (.inl ⟨hoccurs, hfirst⟩)⟩)
    exact haccess.1

/-- What an instruction indexes is in range: a conditional Pauli depends on recorded outcomes. -/
def FaultyInstruction.InRange (functions : SamplingFunctions K)
    (noiseless : OutcomeCompleteSimulation) :
    FaultyInstruction K → Prop
  | .op (.conditionalPauli _ outcomes _) => ∀ id ∈ outcomes, id < noiseless.outcomeCount
  | .op _ => True
  | .noise fault => fault.InRange functions noiseless

omit [IsStrictOrderedRing K] in
theorem lt_of_mem_outcomeRows {instruction : Instruction}
    (h : (FaultyInstruction.op instruction).InRange functions noiseless) {nextOutcomeId id : ℕ}
    (hnext : nextOutcomeId + instruction.outcomeCount ≤ noiseless.outcomeCount)
    (hid : id ∈ instruction.outcomeRows nextOutcomeId) : id < noiseless.outcomeCount := by
  cases instruction with
  | measure observable outcomeId =>
    cases mem_singleton.mp hid
    exact hnext
  | conditionalPauli observable outcomes parity => exact h id hid
  | _ => cases hid

theorem inRange_of_mem_replayAccesses {input : SamplingInput K} {nextOutcomeId position : ℕ}
    {circuit : List (FaultyInstruction K)}
    (hframes : ∀ instruction, .op instruction ∈ circuit → ∀ qubit ∈ instruction.frameRows,
      qubit < noiseless.qubitCount)
    (hnext : nextOutcomeId + (circuit.map FaultyInstruction.outcomeCount).sum ≤
      noiseless.outcomeCount)
    (hcircuit : ∀ instruction ∈ circuit, instruction.InRange functions noiseless)
    (hmem : access ∈ replayAccesses functions input
      (fun shot => noiseless.outcomeVector (input.branches shot)) nextOutcomeId position circuit) :
    access.InRange noiseless.qubitCount noiseless.outcomeCount input.shotCount := by
  induction circuit generalizing nextOutcomeId position with
  | nil => cases hmem
  | cons first rest ih =>
    have hself := hcircuit first mem_cons_self
    have ih := fun nextOutcomeId position => @ih nextOutcomeId position
      (fun instruction hmem => hframes instruction (mem_cons_of_mem _ hmem))
    rw [map_cons, sum_cons] at hnext
    cases first with
    | op instruction =>
      rw [FaultyInstruction.outcomeCount] at hnext
      rw [replayAccesses, mem_append, Instruction.accesses, mem_append] at hmem
      rcases hmem with (hmem | hmem) | hmem
      · obtain ⟨qubit, hqubit, rfl⟩ := mem_map.mp hmem
        exact hframes instruction mem_cons_self qubit hqubit
      · obtain ⟨id, hid, rfl⟩ := mem_map.mp hmem
        exact lt_of_mem_outcomeRows hself (by omega) hid
      · exact ih _ _ (by omega)
          (fun instruction hmem => hcircuit instruction (mem_cons_of_mem _ hmem)) hmem
    | noise fault =>
      rw [FaultyInstruction.outcomeCount, Nat.zero_add] at hnext
      rw [replayAccesses, mem_append] at hmem
      rcases hmem with hmem | hmem
      · rw [PauliFault.accesses] at hmem
        split at hmem
        · cases hmem
        · rename_i hprobability
          exact PauliFault.InRange.injectNoise hself (not_le.mp hprobability) hmem
      · exact ih _ _ hnext
          (fun instruction hmem => hcircuit instruction (mem_cons_of_mem _ hmem)) hmem

omit [IsStrictOrderedRing K] in
theorem subset_replayAccesses (functions : SamplingFunctions K)
    (circuit : List (FaultyInstruction K)) (nextOutcomeId position : ℕ) :
    (∀ instruction, .op instruction ∈ circuit → ∃ next, ∀ input : SamplingInput K, ∀ outcomes,
      instruction.accesses next ⊆
        replayAccesses functions input outcomes nextOutcomeId position circuit) ∧
    ∀ fault, .noise fault ∈ circuit → ∃ place, ∀ input : SamplingInput K, ∀ outcomes,
      fault.accesses functions input outcomes place ⊆
        replayAccesses functions input outcomes nextOutcomeId position circuit := by
  induction circuit generalizing nextOutcomeId position with
  | nil => exact ⟨nofun, nofun⟩
  | cons first rest ih =>
    cases first with
    | op first =>
      obtain ⟨hops, hfaults⟩ := ih (nextOutcomeId + first.outcomeCount) (position + 1)
      refine ⟨fun instruction hmem => ?_, fun fault hmem => ?_⟩
      · rcases mem_cons.mp hmem with heq | hmem
        · cases heq
          exact ⟨nextOutcomeId, fun input outcomes => subset_append_left _ _⟩
        · obtain ⟨next, hnext⟩ := hops instruction hmem
          exact ⟨next, fun input outcomes => subset_append_of_subset_right _
            (hnext input outcomes)⟩
      · obtain ⟨place, hplace⟩ :=
          hfaults fault ((mem_cons.mp hmem).resolve_left nofun)
        exact ⟨place, fun input outcomes => subset_append_of_subset_right _
          (hplace input outcomes)⟩
    | noise first =>
      obtain ⟨hops, hfaults⟩ := ih nextOutcomeId (position + 1)
      refine ⟨fun instruction hmem => ?_, fun fault hmem => ?_⟩
      · obtain ⟨next, hnext⟩ :=
          hops instruction ((mem_cons.mp hmem).resolve_left nofun)
        exact ⟨next, fun input outcomes => subset_append_of_subset_right _
          (hnext input outcomes)⟩
      · rcases mem_cons.mp hmem with heq | hmem
        · cases heq
          exact ⟨position, fun input outcomes => subset_append_left _ _⟩
        · obtain ⟨place, hplace⟩ := hfaults fault hmem
          exact ⟨place, fun input outcomes => subset_append_of_subset_right _
            (hplace input outcomes)⟩

/-- Sampling indexes nothing out of range exactly when every conditional Pauli depends on
recorded outcomes, and every fault that can occur depends on recorded outcomes and mentions qubits
in use. -/
theorem FaultySimulation.sample_inRange_iff (functions : SamplingFunctions K)
    {qubitCount outcomeCount branchBitCount : ℕ} {calls : List (FaultyCall K)}
    {simulation : FaultySimulation K}
    (hrun : run calls (withCapacity qubitCount outcomeCount branchBitCount) = some simulation) :
    (∀ input : SamplingInput K, ∀ access ∈ simulation.sampleAccesses functions input,
      access.InRange simulation.noiseless.qubitCount simulation.noiseless.outcomeCount
        input.shotCount) ↔ ∀ instruction ∈ simulation.circuit,
        instruction.InRange functions simulation.noiseless := by
  have hrecorded := recorded_of_run hrun
  obtain ⟨hops, hfaults⟩ := subset_replayAccesses functions simulation.circuit 0 0
  constructor
  · intro h instruction hmem
    cases instruction with
    | op instruction =>
      obtain ⟨next, hnext⟩ := hops instruction hmem
      cases instruction with
      | conditionalPauli observable outcomes parity =>
        intro id hid
        have haccess := h ⟨0, fun _ => 0, fun _ _ => Draw.ofWord 0, fun _ _ => Draw.ofWord 0⟩
          (.outcomeRow id) (hnext _ _ (mem_append_right _ (mem_map_of_mem hid)))
        exact haccess
      | _ => trivial
    | noise fault =>
      obtain ⟨place, hplace⟩ := hfaults fault hmem
      refine PauliFault.inRange_of_injectNoise fun hprobability branch draw access haccess => ?_
      refine h ⟨_, fun _ => branch, fun _ _ => draw, fun _ _ => draw⟩ access
        (hplace _ _ ?_)
      rw [PauliFault.accesses, if_neg (not_le.mpr hprobability)]
      cases hid : fault.correlationId with
      | none => exact haccess
      | some id => exact haccess
  · intro h input access hmem
    exact inRange_of_mem_replayAccesses hrecorded.frameRows
      (by rw [Nat.zero_add, hrecorded.outcomeCount]) h hmem

end Mentions

/-- The functions for faults that are certain: no shot is skipped. -/
def certainFunctions : SamplingFunctions ℚ where
  nextSkip _ _ := 0
  partitionPoint _ _ := 0

/-- A bit flip of the first qubit that is certain. -/
def certainFlip : PauliFault ℚ where
  probability := 1
  distribution := .depolarizingOnQubits [0]
  correlationId := none
  condition := none
  valid := ⟨by decide, nofun⟩

def oneShot : SamplingInput ℚ where
  shotCount := 1
  branches _ := 0
  rng _ _ := Draw.ofWord 0
  correlatedRng _ _ := Draw.ofWord 0

/-- A qubit in use may have faults. -/
theorem FaultySimulation.sample_inRange_flip : run [.applyFault certainFlip] (withCapacity 1 0 0) =
        some (⟨[.noise certainFlip], .withCapacity 1 0 0⟩ : FaultySimulation ℚ) ∧
      ∀ input : SamplingInput ℚ, ∀ access ∈
        (⟨[.noise certainFlip], .withCapacity 1 0 0⟩ : FaultySimulation ℚ).sampleAccesses
          certainFunctions input, access.InRange 1 0 input.shotCount := by
  refine ⟨rfl, (sample_inRange_iff certainFunctions
    (show run [.applyFault certainFlip] (withCapacity 1 0 0) = some _ from rfl)).mpr ?_⟩
  intro instruction hmem
  cases mem_singleton.mp hmem
  refine fun _ => ⟨nofun, fun _ qubit hqubit => ?_⟩
  cases mem_singleton.mp hqubit
  exact Nat.zero_lt_one

def reservedQubit : OutcomeCompleteSimulation :=
  ((OutcomeCompleteSimulation.new 0).reserveQubits 1).get (by decide +kernel)

/-- A qubit that is only reserved has no frames: its fault is out of range. -/
theorem FaultySimulation.sample_not_inRange :
    ¬∀ (functions : SamplingFunctions ℚ) (calls : List (FaultyCall ℚ)) simulation,
      run calls (new ℚ) = some simulation → ∀ input : SamplingInput ℚ,
        ∀ access ∈ simulation.sampleAccesses functions input,
          access.InRange simulation.noiseless.qubitCount simulation.noiseless.outcomeCount
            input.shotCount := by
  intro h
  have hreserve : (OutcomeCompleteSimulation.new 0).reserveQubits 1 = some reservedQubit := by
    rw [reservedQubit, Option.some_get]
  have hrun : run [.reserveQubits 1, .applyFault certainFlip] (new ℚ) =
      some ⟨[.noise certainFlip], reservedQubit⟩ := by
    change ((OutcomeCompleteSimulation.new 0).reserveQubits 1).map _ >>= _ = _
    rfl
  exact absurd (h certainFunctions _ _ hrun oneShot (.negate 0 0) (by decide +kernel))
    (by decide +kernel)

end QdkEc
