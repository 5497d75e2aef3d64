import QdkEc.Pauliverse.OutcomeSpecificSimulation

/-!
# Outcome-specific simulation refines the stabilizer machine

This module relates a state of `OutcomeSpecificSimulation` to a stabilizer
machine that reads its random bits from the same source, and proves that every
operation keeps the relation.
-/

namespace QdkEc

open PhasedPauli Option PauliUnitary StabilizerMachine SimulationOp

namespace OutcomeSpecificSimulation

/-- The stabilizers and outcomes that a simulation stands for. -/
def machine (s : OutcomeSpecificSimulation) : StabilizerMachine where
  stabilizers := s.clifford.frame.stabilizers 0
  outcomes := s.outcomeVector
  introducesBranchBit := s.outcomeIntroducesBranchBit

/-- The simulation is in a consistent state, acts on `n` qubits and draws the given bits. -/
structure Invariant (bits : ℕ → Bool) (n : ℕ) (s : OutcomeSpecificSimulation) : Prop where
  qubitCount_le : s.qubitCount ≤ n
  encodes : s.clifford.Encodes n
  length_eq : s.outcomeVector.length = s.outcomeIntroducesBranchBit.length
  numBranchBits_eq : s.numBranchBits = s.outcomeIntroducesBranchBit.count true
  bitSource_eq : ∀ k, s.bitSource k = bits (s.numBranchBits + k)

theorem invariant_newWithBitSource (n : ℕ) (bits : ℕ → Bool) :
    (newWithBitSource n bits).Invariant bits n where
  qubitCount_le := le_rfl
  encodes := CliffordUnitary.encodes_identity n
  length_eq := rfl
  numBranchBits_eq := rfl
  bitSource_eq k := by simp [newWithBitSource]

variable {op : SimulationOp}

section Steps

variable {bits : ℕ → Bool} {n : ℕ} {s : OutcomeSpecificSimulation} (h : s.Invariant bits n)

include h

theorem Invariant.ensureQubitCapacity (maxQubitId : Option ℕ) :
    ∃ s', s.ensureQubitCapacity maxQubitId = some s' ∧
      s'.Invariant bits (max n (qubitBound maxQubitId)) ∧ s'.machine = s.machine := by
  obtain ⟨hcount, hencodes, hlength, hbits, hsource⟩ := h
  cases maxQubitId with
  | none =>
    exact ⟨s, rfl, ⟨by simpa [qubitBound] using hcount, by simpa [qubitBound] using hencodes,
      hlength, hbits, hsource⟩, rfl⟩
  | some id =>
    rcases Nat.lt_or_ge id s.clifford.numQubits with hid | hid
    · refine ⟨{ s with qubitCount := max s.qubitCount (id + 1) }, ?_, ?_, rfl⟩
      · simp [OutcomeSpecificSimulation.ensureQubitCapacity, qubitCapacity, hid]
      · refine ⟨?_, ?_, hlength, hbits, hsource⟩
        · simpa [qubitBound] using max_le_max_right (id + 1) hcount
        · have hle := hencodes.le
          refine hencodes.mono (le_max_left _ _) (max_le hle ?_)
          simpa [qubitBound] using hid
    · have hpower := le_nextPowerOfTwo (id + 1)
      have hgrow : s.clifford.numQubits < nextPowerOfTwo (id + 1) := by omega
      obtain ⟨C', hresize, _, _⟩ := CliffordUnitary.resize_of_lt hencodes.frame hgrow
      have hle := hencodes.le
      obtain ⟨hencodes', _, hframe⟩ := hencodes.resize (n := max n (id + 1)) hgrow hresize
        (le_max_left _ _) (by omega)
      refine ⟨{ s with qubitCount := max s.qubitCount (id + 1), clifford := C' }, ?_, ?_, ?_⟩
      · simp [OutcomeSpecificSimulation.ensureQubitCapacity, qubitCapacity, reserveQubits, hid,
          hgrow, hresize]
      · exact ⟨by simpa [qubitBound] using max_le_max_right (id + 1) hcount,
          by simpa [qubitBound] using hencodes', hlength, hbits, hsource⟩
      · simp [machine, hframe]

theorem Invariant.applyClifford {op : CliffordOp} (hop : op.WellFormed n)
    (hbound : qubitBound op.maxSupport ≤ n) :
    ∃ s', s.applyClifford op = some s' ∧ s'.Invariant bits n ∧
      s'.machine = s.machine.applyMap op.conjugation := by
  obtain ⟨C', happly, hencodes, hfollows, _⟩ := h.encodes.apply hop hbound
  refine ⟨{ s with clifford := C' }, ?_, ⟨h.qubitCount_le, hencodes, h.length_eq,
    h.numBranchBits_eq, h.bitSource_eq⟩, ?_⟩
  · simp [OutcomeSpecificSimulation.applyClifford, happly]
  · simp [machine, applyMap, hfollows.stabilizers_eq h.encodes.frame h.encodes.fixesFrom]

theorem Invariant.branchBitCount_eq : s.machine.branchBitCount = s.numBranchBits :=
  h.numBranchBits_eq.symm

theorem Invariant.bitSource_zero : s.bitSource 0 = bits s.machine.branchBitCount := by
  rw [h.bitSource_eq, h.branchBitCount_eq, Nat.add_zero]

theorem Invariant.allocateRandomBit : s.allocateRandomBit.Invariant bits n ∧
      s.allocateRandomBit.machine = s.machine.allocateRandomBit bits := by
  refine ⟨⟨h.qubitCount_le, h.encodes, ?_, ?_, ?_⟩, ?_⟩
  · simp [OutcomeSpecificSimulation.allocateRandomBit, h.length_eq]
  · simp [OutcomeSpecificSimulation.allocateRandomBit, h.numBranchBits_eq]
  · intro k
    simp only [OutcomeSpecificSimulation.allocateRandomBit, h.bitSource_eq]
    congr 1
    omega
  · rw [StabilizerMachine.allocateRandomBit, ← h.bitSource_zero]
    rfl

theorem Invariant.totalParity {ids : List ℕ} (hids : ∀ id ∈ ids, id < s.outcomeCount) :
    totalParity s.outcomeVector ids =
      some (StabilizerMachine.totalParity s.machine.outcomes ids) := by
  have hfold : ∀ parity, ids.foldlM (fun res j => do
      let outcome ← s.outcomeVector[j]?
      some (res ^^ outcome)) parity =
        some (ids.foldl (fun parity id => parity ^^ s.outcomeVector.getD id false) parity) := by
    induction ids with
    | nil =>
      intro parity
      rfl
    | cons id ids ih =>
      intro parity
      have hid : id < s.outcomeVector.length := by
        rw [h.length_eq]
        exact hids id (by simp)
      rw [List.foldlM_cons, List.foldl_cons, List.getElem?_eq_getElem hid,
        List.getD_eq_getElem _ _ hid]
      exact ih (fun id' hid' => hids id' (by simp [hid'])) _
  exact hfold false

theorem Invariant.applyConditionalPauliGeneric {pauli : PauliUnitary} (hp : pauli.Below n)
    (ids : List ℕ) (hids : ∀ id ∈ ids, id < s.outcomeCount) (parity : Bool) :
    ∃ s', s.applyConditionalPauliGeneric pauli ids parity = some s' ∧ s'.Invariant bits n ∧
      s'.machine = s.machine.conditionalPauli pauli.toPhased ids parity := by
  have htotal := h.totalParity hids
  have hbound : qubitBound (CliffordOp.leftMulPauli pauli).maxSupport ≤ n := by
    rw [qubitBound_le_iff]
    exact below_iff_maxSupport.mp hp
  have hrange : s.leftMulPauli pauli = s.applyClifford (.leftMulPauli pauli) :=
    if_pos (h.encodes.below hp)
  simp only [OutcomeSpecificSimulation.applyConditionalPauliGeneric, htotal, bind_eq_bind,
    bind_some, StabilizerMachine.conditionalPauli, hrange]
  split_ifs with hparity
  · exact h.applyClifford (show (CliffordOp.leftMulPauli pauli).WellFormed n from hp) hbound
  · exact ⟨s, rfl, h, rfl⟩

theorem Invariant.measure {observable : PauliUnitary} (hp2 : observable.isOrderTwo = true) :
    ∃ s', s.measure observable = some s' ∧
      s'.Invariant bits (max n (qubitBound observable.maxSupport)) ∧
        s'.machine = s.machine.measure bits observable.toPhased := by
  obtain ⟨s₁, hensure, h₁, hmachine⟩ := h.ensureQubitCapacity observable.maxSupport
  have htwo := isOrderTwo_iff.mp hp2
  have hp : observable.Below (max n (qubitBound observable.maxSupport)) :=
    below_iff_maxSupport.mpr (qubitBound_le_iff.mp (le_max_right _ _))
  have hdetermined := h₁.encodes.determined_iff hp htwo 0
  simp only [OutcomeSpecificSimulation.measure, hensure, bind_eq_bind, bind_some]
  rw [← hmachine]
  cases hpivot : (s₁.clifford.assignCliffordPreimage observable).xBits.support.head? with
  | none =>
    refine ⟨_, rfl, ⟨h₁.qubitCount_le, h₁.encodes, ?_, ?_, h₁.bitSource_eq⟩, ?_⟩
    · simp [measureDeterministic, h₁.length_eq]
    · simp [measureDeterministic, h₁.numBranchBits_eq]
    · have hsign := h₁.encodes.sign_mul_mem_iff hp htwo 0 hpivot
      simp only [Bits.dot_zero_right, Bool.xor_false] at hsign
      exact (measure_of_determined (s := s₁.machine) bits hsign).symm
  | some pivot =>
    obtain ⟨halloc, hallocMachine⟩ := h₁.allocateRandomBit
    have houtcome : s₁.allocateRandomBit.outcomeVector.getD
        (s₁.allocateRandomBit.outcomeCount - 1) false = bits s₁.machine.branchBitCount := by
      simp [OutcomeSpecificSimulation.allocateRandomBit, outcomeCount, ← h₁.length_eq,
        ← h₁.bitSource_zero]
    obtain ⟨hencodes, hfollows⟩ := h₁.encodes.updateEncoder hp hpivot htwo
      (bits s₁.machine.branchBitCount)
    have hnot : ¬ Determined s₁.machine.stabilizers observable.toPhased := by
      intro hd
      rw [hdetermined.mp hd] at hpivot
      cases hpivot
    refine ⟨_, rfl, ?_, ?_⟩
    · simp only [houtcome]
      exact ⟨halloc.qubitCount_le, hencodes, halloc.length_eq, halloc.numBranchBits_eq,
        halloc.bitSource_eq⟩
    · have hmeasured := hfollows.stabilizers_eq (σ := 0) h₁.encodes.frame h₁.encodes.fixesFrom
      rw [h₁.encodes.image_collapse hp hpivot htwo 0, Bits.index_zero, Bool.xor_false]
        at hmeasured
      rw [measure_of_not_determined bits hnot, ← hallocMachine]
      refine StabilizerMachine.ext ?_ rfl rfl
      simp only [houtcome]
      exact hmeasured

theorem Invariant.measureWithHint {observable hint : PauliUnitary}
    (hp2 : observable.isOrderTwo = true) (hanti : observable.antiCommutesWith hint = true) :
    ∃ s', s.measureWithHint observable hint = some s' ∧
      s'.Invariant bits (max n (qubitBound (maxPairSupport observable hint))) ∧
        s'.machine = s.machine.measure bits observable.toPhased := by
  obtain ⟨s₁, hensure, h₁, hmachine⟩ := h.ensureQubitCapacity (maxPairSupport observable hint)
  obtain ⟨hp, hh⟩ := maxPairSupport_lt_iff.mp (qubitBound_le_iff.mp (le_max_right n _))
  have htwo := isOrderTwo_iff.mp hp2
  simp only [OutcomeSpecificSimulation.measureWithHint, hensure, bind_eq_bind,
    bind_some, hanti, if_true]
  rw [← hmachine]
  cases hpivot : (s₁.clifford.preimage hint).xBits.support.head? with
  | some pivot =>
    obtain ⟨s₂, hmeasure, h₂, hmachine₂⟩ := h₁.measure hp2
    have hbound := qubitBound_le_iff.mpr (below_iff_maxSupport.mp hp)
    rw [max_eq_left hbound] at h₂
    exact ⟨s₂, hmeasure, h₂, hmachine₂⟩
  | none =>
    have hwf := h₁.encodes.wellFormed_hintedPauli hp hh hanti hpivot htwo
    obtain ⟨s₂, happly, h₂, hmachine₂⟩ := h₁.applyClifford hwf
      (qubitBound_le_iff.mpr (below_iff_maxSupport.mp hwf.1))
    obtain ⟨h₃, hmachine₃⟩ := h₂.allocateRandomBit
    obtain ⟨s₄, hconditional, h₄, hmachine₄⟩ := h₃.applyConditionalPauliGeneric hh
      [s₂.allocateRandomBit.outcomeCount - 1]
      (by simp [OutcomeSpecificSimulation.allocateRandomBit, outcomeCount]) true
    refine ⟨s₄, ?_, h₄, ?_⟩
    · simp [happly, hconditional]
    · rw [hmachine₄, hmachine₃, hmachine₂]
      have hcollapse := h₁.encodes.image_collapse_hint hh hanti hpivot htwo 0
      simp only [Bits.dot_zero_right, Bool.xor_false] at hcollapse
      have hid : s₂.allocateRandomBit.outcomeCount - 1 = s₁.machine.outcomes.length := by
        have houtcomes := congrArg (·.outcomes.length) hmachine₂
        have hlength := h₂.length_eq
        simp only [machine, applyMap] at houtcomes
        simp only [OutcomeSpecificSimulation.allocateRandomBit, outcomeCount, machine,
          List.length_append, List.length_singleton]
        omega
      have hconjugation : (CliffordOp.leftMulPauliExp
          (hintedPauli observable hint (s₁.clifford.preimage hint))).conjugation =
            pauliExp (iPow 3 * (observable.toPhased * s₁.clifford.hintStabilizer hint)) := by
        rw [CliffordOp.conjugation, CliffordUnitary.toPhased_hintedPauli]
      rw [hconjugation]
      exact hinted_eq_measure bits
        (h₁.encodes.not_determined_of_hint hh hanti hpivot 0) hcollapse
        (conjugate_iPow_mul _ _).symm hid

theorem Invariant.apply (hop : op.WellFormed s.outcomeCount) (hinUse : op.InUse n) :
    ∃ s', s.apply op = some s' ∧ s'.Invariant bits (max n (qubitBound op.maxSupport)) ∧
      s'.machine = op.step bits s.machine := by
  cases op with
  | unitary op =>
    obtain ⟨s₁, hensure, h₁, hmachine⟩ := h.ensureQubitCapacity op.maxSupport
    obtain ⟨s₂, happly, h₂, hmachine₂⟩ := h₁.applyClifford
      (hop.of_qubitBound_le (le_max_right n _)) (le_max_right n _)
    refine ⟨s₂, ?_, h₂, ?_⟩
    · simp [OutcomeSpecificSimulation.apply, unitary, hensure, happly]
    · rw [hmachine₂, hmachine]
      rfl
  | conditionalPauli observable outcomes parity =>
    have hbound : qubitBound observable.maxSupport ≤ n :=
      qubitBound_le_iff.mpr (below_iff_maxSupport.mp hinUse)
    simp only [SimulationOp.maxSupport, max_eq_left hbound]
    exact h.applyConditionalPauliGeneric hinUse outcomes hop parity
  | measure observable => exact h.measure hop
  | measureWithHint observable hint => exact h.measureWithHint hop.1 hop.2
  | allocateRandomBit =>
    obtain ⟨h₁, hmachine⟩ := h.allocateRandomBit
    refine ⟨s.allocateRandomBit, rfl, ?_, hmachine⟩
    simpa [SimulationOp.maxSupport, qubitBound] using h₁

end Steps

variable {ops : List SimulationOp}

variable {bits : ℕ → Bool} {s s' : OutcomeSpecificSimulation}

theorem Invariant.run {n : ℕ} (h : s.Invariant bits n)
    (hops : SimulationOp.WellFormedFrom s.outcomeCount ops)
    (hinUse : SimulationOp.InUseFrom n ops) :
    ∃ s', run ops s = some s' ∧ s'.Invariant bits (qubitsInUse n ops) ∧
      s'.machine = steps bits ops s.machine := by
  induction ops generalizing n s with
  | nil => exact ⟨s, rfl, h, rfl⟩
  | cons op ops ih =>
    obtain ⟨s₁, happly, h₁, hmachine⟩ := h.apply hops.1 hinUse.1
    have hcount : s₁.outcomeCount = s.outcomeCount + op.outcomeCount := by
      have hlength := length_step bits s.machine op
      rw [← hmachine] at hlength
      exact hlength
    obtain ⟨s₂, hrun, h₂, hmachine₂⟩ := ih h₁ (by rw [hcount]; exact hops.2) hinUse.2
    refine ⟨s₂, ?_, h₂, ?_⟩
    · simp only [OutcomeSpecificSimulation.run, List.foldlM_cons, happly]
      exact hrun
    · rw [hmachine₂, hmachine]
      rfl

theorem qubitCount_ensureQubitCapacity {maxQubitId : Option ℕ}
    (h : s.ensureQubitCapacity maxQubitId = some s') :
    s'.qubitCount = max s.qubitCount (qubitBound maxQubitId) := by
  cases maxQubitId with
  | none =>
    obtain rfl := some_inj.mp h
    simp [qubitBound]
  | some id =>
    simp only [ensureQubitCapacity, reserveQubits] at h
    split_ifs at h
    · obtain ⟨C, _, hs⟩ := bind_eq_some_iff.mp h
      obtain rfl := some_inj.mp hs
      rfl
    · obtain rfl := some_inj.mp h
      rfl
    · obtain rfl := some_inj.mp h
      rfl

theorem qubitCount_applyClifford {op : CliffordOp}
    (h : s.applyClifford op = some s') : s'.qubitCount = s.qubitCount := by
  obtain ⟨C, _, hs⟩ := bind_eq_some_iff.mp h
  obtain rfl := some_inj.mp hs
  rfl

theorem qubitCount_applyConditionalPauliGeneric
    {pauli : PauliUnitary} {ids : List ℕ} {parity : Bool}
    (h : s.applyConditionalPauliGeneric pauli ids parity = some s') :
    s'.qubitCount = s.qubitCount := by
  obtain ⟨total, _, hs⟩ := bind_eq_some_iff.mp h
  unfold leftMulPauli at hs
  split_ifs at hs
  · exact qubitCount_applyClifford hs
  · obtain rfl := some_inj.mp hs
    rfl

theorem qubitCount_measure {observable : PauliUnitary}
    (h : s.measure observable = some s') :
    s'.qubitCount = max s.qubitCount (qubitBound observable.maxSupport) := by
  obtain ⟨s₁, hensure, hs⟩ := bind_eq_some_iff.mp h
  rw [← qubitCount_ensureQubitCapacity hensure]
  cases hpivot : (s₁.clifford.assignCliffordPreimage observable).xBits.support.head? with
  | none =>
    simp only [hpivot] at hs
    obtain rfl := some_inj.mp hs
    rfl
  | some pivot =>
    simp only [hpivot] at hs
    obtain rfl := some_inj.mp hs
    rfl

theorem qubitCount_apply
    (hinUse : op.InUse s.qubitCount) (h : s.apply op = some s') :
    s'.qubitCount = max s.qubitCount (qubitBound op.maxSupport) := by
  cases op with
  | unitary op =>
    obtain ⟨s₁, hensure, hs⟩ := bind_eq_some_iff.mp h
    rw [qubitCount_applyClifford hs, qubitCount_ensureQubitCapacity hensure]
    rfl
  | conditionalPauli observable outcomes parity =>
    rw [qubitCount_applyConditionalPauliGeneric h]
    exact (max_eq_left (qubitBound_le_iff.mpr
      (below_iff_maxSupport.mp hinUse))).symm
  | measure observable => exact qubitCount_measure h
  | measureWithHint observable hint =>
    obtain ⟨s₁, hensure, hs⟩ := bind_eq_some_iff.mp h
    have hcount := qubitCount_ensureQubitCapacity hensure
    split_ifs at hs
    cases hpivot : (s₁.clifford.preimage hint).xBits.support.head? with
    | some pivot =>
      simp only [hpivot] at hs
      obtain ⟨hp, _⟩ := maxPairSupport_lt_iff.mp (qubitBound_le_iff.mp
        (le_refl (qubitBound (maxPairSupport observable hint))))
      have hbound := qubitBound_le_iff.mpr (below_iff_maxSupport.mp hp)
      rw [qubitCount_measure hs, hcount, max_assoc, max_eq_left hbound]
      rfl
    | none =>
      simp only [hpivot] at hs
      obtain ⟨s₂, happly, hs⟩ := bind_eq_some_iff.mp hs
      rw [qubitCount_applyConditionalPauliGeneric hs]
      exact (qubitCount_applyClifford happly).trans hcount
  | allocateRandomBit =>
    obtain rfl := some_inj.mp h
    exact (max_eq_left (Nat.zero_le _)).symm

theorem qubitCount_run
    (hinUse : SimulationOp.InUseFrom s.qubitCount ops)
    (h : OutcomeSpecificSimulation.run ops s = some s') :
    s'.qubitCount = qubitsInUse s.qubitCount ops := by
  induction ops generalizing s with
  | nil =>
    obtain rfl := some_inj.mp h
    rfl
  | cons op ops ih =>
    obtain ⟨s₁, happly, hrun⟩ := bind_eq_some_iff.mp h
    have hcount := qubitCount_apply hinUse.1 happly
    rw [ih (hcount ▸ hinUse.2) hrun, hcount]
    rfl

theorem outcomeCount_step
    (hmachine : s'.machine = op.step bits s.machine) :
    s'.outcomeCount = s.outcomeCount + op.outcomeCount := by
  have hlength := length_step bits s.machine op
  rw [← hmachine] at hlength
  exact hlength

theorem Invariant.of_apply {n : ℕ}
    (h : s.Invariant bits n) (hop : op.WellFormed s.outcomeCount) (happly : s.apply op = some s') :
    (∃ m, s'.Invariant bits m) ∧ s'.machine = op.step bits s.machine := by
  have hwide : s.Invariant bits s.clifford.numQubits :=
    { h with
      qubitCount_le := h.qubitCount_le.trans h.encodes.le
      encodes := h.encodes.mono h.encodes.le le_rfl }
  by_cases hinUse : op.InUse s.clifford.numQubits
  · obtain ⟨s₁, happly₁, h₁, hmachine⟩ := hwide.apply hop hinUse
    obtain rfl := some_inj.mp (happly₁.symm.trans happly)
    exact ⟨⟨_, h₁⟩, hmachine⟩
  · cases op with
    | conditionalPauli observable outcomes parity =>
      -- beyond the tableau the operation returns only when its condition fails
      obtain ⟨total, htotal, hs⟩ := bind_eq_some_iff.mp happly
      rw [h.totalParity hop] at htotal
      rw [leftMulPauli, if_neg (show ¬ observable.Below s.qubitCapacity from hinUse)] at hs
      split_ifs at hs with hparity
      obtain rfl := some_inj.mp hs
      rw [← some_inj.mp htotal] at hparity
      exact ⟨⟨n, h⟩, (if_neg hparity).symm⟩
    | _ => exact absurd trivial hinUse

theorem Invariant.of_run {n : ℕ} (h : s.Invariant bits n)
    (hops : SimulationOp.WellFormedFrom s.outcomeCount ops)
    (hrun : OutcomeSpecificSimulation.run ops s = some s') :
    (∃ m, s'.Invariant bits m) ∧ s'.machine = steps bits ops s.machine := by
  induction ops generalizing n s with
  | nil =>
    obtain rfl := some_inj.mp hrun
    exact ⟨⟨n, h⟩, rfl⟩
  | cons op ops ih =>
    obtain ⟨s₁, happly, hrun⟩ := bind_eq_some_iff.mp hrun
    obtain ⟨⟨m, h₁⟩, hmachine⟩ := h.of_apply hops.1 happly
    obtain ⟨hinvariant, hsteps⟩ := ih h₁ (outcomeCount_step hmachine ▸ hops.2) hrun
    refine ⟨hinvariant, ?_⟩
    rw [hsteps, hmachine]
    rfl

end OutcomeSpecificSimulation

end QdkEc
