import QdkEc.Lib.FramedMachines
import QdkEc.Pauliverse.FrameConjugation
import QdkEc.Pauliverse.RealisedFaults
import QdkEc.Pauliverse.SamplingBounds

/-!
# Sampled and directly simulated outcomes

This module compares sampling with a direct simulation in which the Paulis of a shot are
inserted.  After every call the direct simulation is, in every branch, the noiseless one
with the frame of the shot applied and the outcome deltas added, where the branches are
matched by flipping the random outcomes whose deltas are set.  A permutation keeps this
only for frames that it may move either way.
-/

namespace QdkEc

open PhasedPauli OutcomeCompleteSimulation FramePropagator AlignedBitMatrix List Option CliffordOp

namespace OutcomeCompleteSimulation

variable {n : ℕ} {c c' : OutcomeCompleteSimulation}

theorem Invariant.reserveQubits (h : c.Invariant n) {newCapacity : ℕ}
    (hreserve : c.reserveQubits newCapacity = some c') :
    c'.Invariant n ∧ ∀ r, c'.machine r = c.machine r := by
  rw [OutcomeCompleteSimulation.reserveQubits] at hreserve
  split at hreserve
  · rename_i hgrow
    obtain ⟨C, hresize, hreserve⟩ := bind_eq_some_iff.mp hreserve
    cases hreserve
    obtain ⟨hencodes, hcount, hframe⟩ := h.encodes.resize (n := n) hgrow hresize le_rfl
      (h.encodes.le.trans (le_of_lt hgrow))
    have hrows : c.signMatrix.rowCount ≤ newCapacity := by
      rw [h.signRows]
      exact le_of_lt hgrow
    have hrow := row_resize c.signMatrix hrows c.signMatrix.columnCount
      (fun i => (h.signRow_below i).mono h.signColumns)
    have hcounts := counts_resize c.signMatrix hrows c.signMatrix.columnCount
    constructor
    · refine { h with encodes := hencodes, signRows := ?_, signRow_below := ?_, signColumns := ?_ }
      · exact hcounts.1.trans hcount.symm
      · intro i
        rw [hrow]
        exact h.signRow_below i
      · rw [hcounts.2]
        exact h.signColumns
    · intro r
      refine StabilizerMachine.ext ?_ rfl rfl
      simp only [machine, hframe]
      congr 1
      exact Bits.ext_index fun i => by rw [index_signs, index_signs, hrow]
  · cases hreserve
    exact ⟨h, fun _ => rfl⟩

theorem Invariant.reserveOutcomes (h : c.Invariant n) {newOutcomeCapacity newBranchBitCapacity : ℕ}
    (hreserve : c.reserveOutcomes newOutcomeCapacity newBranchBitCapacity = some c') :
    c'.Invariant n ∧ ∀ r, c'.machine r = c.machine r := by
  rw [OutcomeCompleteSimulation.reserveOutcomes] at hreserve
  split at hreserve
  · cases hreserve
    have hrowsLe := le_max_right newOutcomeCapacity c.outcomeCapacity
    have hcolumnsLe := le_max_right newBranchBitCapacity c.branchBitCapacity
    have hsignRow := row_resize c.signMatrix le_rfl
      (max newBranchBitCapacity c.branchBitCapacity)
      (fun i => (h.signRow_below i).mono h.signColumns)
    have hsignCounts := counts_resize c.signMatrix le_rfl
      (max newBranchBitCapacity c.branchBitCapacity)
    have houtcomeRow := row_resize c.outcomeMatrix hrowsLe
      (max newBranchBitCapacity c.branchBitCapacity)
      (fun i => (h.outcomeRow_below i).mono h.outcomeColumns)
    have houtcomeCounts := counts_resize c.outcomeMatrix hrowsLe
      (max newBranchBitCapacity c.branchBitCapacity)
    have hcolumns : c.branchBitCount ≤ max newBranchBitCapacity c.branchBitCapacity :=
      h.outcomeColumns.trans hcolumnsLe
    constructor
    · refine { h with
        signRows := hsignCounts.1.trans h.signRows
        signRow_below := ?_
        signColumns := hcolumns.trans_eq hsignCounts.2.symm
        outcomeRow_below := ?_
        outcomeRow_zero := ?_
        outcomeColumns := hcolumns.trans_eq houtcomeCounts.2.symm
        outcomeRows := (h.outcomeRows.trans hrowsLe).trans_eq houtcomeCounts.1.symm }
      · intro i
        rw [hsignRow]
        exact h.signRow_below i
      · intro i
        rw [houtcomeRow]
        exact h.outcomeRow_below i
      · intro i hi
        rw [houtcomeRow]
        exact h.outcomeRow_zero i hi
    · intro r
      refine StabilizerMachine.ext ?_ ?_ rfl
      · refine congrArg c.clifford.frame.stabilizers (Bits.ext_index fun i => ?_)
        rw [index_signs, index_signs, hsignRow]
      · simp only [machine, outcomeVector, houtcomeRow]
        rfl
  · cases hreserve

theorem length_outcomes_machine (c : OutcomeCompleteSimulation) (r : Bits) :
    (c.machine r).outcomes.length = c.outcomeCount := by
  simp [machine, outcomeVector]

theorem Invariant.of_apply (h : c.Invariant n) {op : SimulationOp}
    (hop : op.WellFormed c.outcomeCount) (happly : c.apply op = some c') :
    c'.Invariant (max n (qubitBound op.maxSupport)) ∧
      ∀ r, c'.machine r = op.step r.index (c.machine r) := by
  by_cases hrecords : c.RecordsOk op
  · obtain ⟨c₁, happly₁, h₁, hmachine, -⟩ := h.apply hop hrecords
    obtain rfl := some_inj.mp (happly₁.symm.trans happly)
    exact ⟨h₁, hmachine⟩
  · rw [h.apply_eq_none hop hrecords] at happly
    cases happly

end OutcomeCompleteSimulation

variable {faults : FaultRealisation}

namespace FramePropagator

variable {n shot : ℕ} {F : FramePropagator} {p : PhasedPauli}

section FixedByTwo

variable {permutation qubits : List ℕ}

theorem FixedByTwo.row_eq (hfixed : F.FixedByTwo shot permutation qubits)
    (hop : (leftMulPermutation permutation qubits).WellFormed n) (i : ℕ) :
    let twice := CliffordUnitary.permutationSource permutation qubits
      (CliffordUnitary.permutationSource permutation qubits i)
    (F.xFrames.row twice).index shot = (F.xFrames.row i).index shot ∧
      (F.zFrames.row twice).index shot = (F.zFrames.row i).index shot := by
  obtain ⟨hperm, hnodup, hlen, -⟩ := hop
  by_cases hi : i ∈ qubits
  · obtain ⟨e, he, rfl⟩ := mem_iff_getElem.mp hi
    have he' : e < permutation.length := by omega
    have hlt : permutation.getD e 0 < qubits.length := by
      rw [getD_eq_getElem _ _ he', ← hlen]
      exact mem_range.mp (hperm.mem_iff.mp (getElem_mem he'))
    have honce : CliffordUnitary.permutationSource permutation qubits qubits[e] =
        qubits.getD (permutation.getD e 0) 0 := by
      rw [CliffordUnitary.permutationSource, if_pos (getElem_mem he),
        List.Nodup.idxOf_getElem hnodup]
    have htwice : CliffordUnitary.permutationSource permutation qubits
        (qubits.getD (permutation.getD e 0) 0) =
          qubits.getD (permutation.getD (permutation.getD e 0) 0) 0 := by
      rw [getD_eq_getElem qubits 0 hlt, CliffordUnitary.permutationSource,
        if_pos (getElem_mem hlt), List.Nodup.idxOf_getElem hnodup]
    have h := hfixed e he'
    rw [getD_eq_getElem qubits 0 he] at h
    simp only [honce, htwice]
    exact h
  · have hstay : CliffordUnitary.permutationSource permutation qubits i = i := by
      rw [CliffordUnitary.permutationSource, if_neg hi]
    simp [hstay]

theorem remap_eq_of_fixed (hop : (leftMulPermutation permutation qubits).WellFormed n) {b : Bits}
    (hfixed : ∀ i, b.index (CliffordUnitary.permutationSource permutation qubits
      (CliffordUnitary.permutationSource permutation qubits i)) = b.index i) :
    b.remap (CliffordUnitary.permutationSource permutation qubits) =
      b.remap (permutationTarget permutation qubits) := by
  obtain ⟨hperm, hnodup, hlen, -⟩ := hop
  have hsource := CliffordUnitary.permutationSource_injective hperm hnodup hlen
  have htarget : Function.Injective (permutationTarget permutation qubits) := by
    rw [← symm_permutationSourceEquiv hperm hnodup hlen]
    exact Equiv.injective _
  refine Bits.ext_index fun j => ?_
  obtain ⟨i, rfl⟩ := CliffordUnitary.permutationSource_surjective hperm hnodup hlen j
  have hback := permutationTarget_permutationSource hperm hnodup hlen
    (CliffordUnitary.permutationSource permutation qubits i)
  rw [Bits.index_remap_apply fun j _ hj => hsource hj]
  conv_rhs => rw [← hback]
  rw [Bits.index_remap_apply fun j _ hj => htarget hj, hfixed]

theorem carries_permute (hfixed : F.FixedByTwo shot permutation qubits)
    (hop : (leftMulPermutation permutation qubits).WellFormed n) (hF : F.Sized n)
    (h : F.Carries shot p) : (F.applyPermutation permutation qubits).Carries shot
      ((leftMulPermutation permutation qubits).conjugation p) := by
  have htarget : Function.Injective (permutationTarget permutation qubits) := by
    rw [← symm_permutationSourceEquiv hop.1 hop.2.1 hop.2.2.1]
    exact Equiv.injective _
  refine (carries_applyPermutation hop hF h).2.of_bits ?_ ?_
  · rw [conjugation, GeneratorFrame.lift_relabel_identity htarget]
    refine (remap_eq_of_fixed hop fun i => ?_).symm
    rw [← h.xBits, ← h.xBits]
    exact (hfixed.row_eq hop i).1
  · rw [conjugation, GeneratorFrame.lift_relabel_identity htarget]
    refine (remap_eq_of_fixed hop fun i => ?_).symm
    rw [← h.zBits, ← h.zBits]
    exact (hfixed.row_eq hop i).2

theorem fixedByTwo_of_isInvolution (hinvolution : IsInvolution permutation) :
    F.FixedByTwo shot permutation qubits := by
  intro e he
  simp only [hinvolution e he]
  exact ⟨trivial, trivial⟩

end FixedByTwo

theorem carries_execute_unitary {op : CliffordOp} (hop : op.WellFormed n)
    (hmoves : F.MovesAlike shot op.instruction) (hF : F.Sized n) (h : F.Carries shot p) :
    (F.execute op.instruction []).Sized n ∧
      (F.execute op.instruction []).Carries shot (op.conjugation p) := by
  have hcliffordOp : op.instruction.cliffordOp = some op := by
    cases op <;> rfl
  obtain ⟨hsized, hcarries⟩ := carries_execute ⟨op, hcliffordOp, hop⟩ [] hF h
  refine ⟨hsized, ?_⟩
  cases op with
  | leftMulPermutation permutation support => exact carries_permute hmoves hop hF h
  | leftMul unitaryOp support =>
    rwa [frameConjugation_of_involution hcliffordOp hop trivial] at hcarries
  | leftMulPauli pauli => rwa [frameConjugation_of_involution hcliffordOp hop trivial] at hcarries
  | leftMulPauliExp pauli =>
    rwa [frameConjugation_of_involution hcliffordOp hop trivial] at hcarries
  | leftMulControlledPauli control target =>
    rwa [frameConjugation_of_involution hcliffordOp hop trivial] at hcarries
  | leftMulClifford clifford support =>
    rwa [frameConjugation_of_involution hcliffordOp hop trivial] at hcarries

/-- Two propagators have recorded the same deltas. -/
structure SameDeltas (F F' : FramePropagator) : Prop where
  outcomeDeltas : F'.outcomeDeltas = F.outcomeDeltas
  nextOutcomeId : F'.nextOutcomeId = F.nextOutcomeId
  shotCount : F'.shotCount = F.shotCount

theorem SameDeltas.refl (F : FramePropagator) : F.SameDeltas F :=
  ⟨rfl, rfl, rfl⟩

theorem SameDeltas.trans {F F' F'' : FramePropagator} (h : F.SameDeltas F')
    (h' : F'.SameDeltas F'') : F.SameDeltas F'' :=
  ⟨h'.1.trans h.1, h'.2.trans h.2, h'.3.trans h.3⟩

theorem SameDeltas.deltas {F F' : FramePropagator} (h : F.SameDeltas F') :
    F'.deltas = F.deltas := by
  funext shot id
  rw [FramePropagator.deltas, h.outcomeDeltas, FramePropagator.deltas]

theorem sameDeltas_foldl {α : Type} (update : FramePropagator → α → FramePropagator)
    (hupdate : ∀ (F : FramePropagator) a, F.SameDeltas (update F a)) (l : List α)
    (F : FramePropagator) : F.SameDeltas (l.foldl update F) := by
  induction l generalizing F with
  | nil => exact .refl F
  | cons a l ih => exact (hupdate F a).trans (ih (update F a))

theorem sameDeltas_xorPauli (F : FramePropagator) (pauli : PauliUnitary) (mask : Bits) :
    F.SameDeltas (F.xorPauli pauli mask) :=
  (sameDeltas_foldl (fun F qubit => F.xorX qubit mask) (fun _ _ => ⟨rfl, rfl, rfl⟩)
    pauli.xBits.support F).trans
      (sameDeltas_foldl (fun F qubit => F.xorZ qubit mask) (fun _ _ => ⟨rfl, rfl, rfl⟩)
        pauli.zBits.support _)

theorem sameDeltas_execute_unitary (F : FramePropagator) (op : CliffordOp) :
    F.SameDeltas (F.execute op.instruction []) := by
  cases op with
  | leftMul unitaryOp support => cases unitaryOp <;> exact ⟨rfl, rfl, rfl⟩
  | leftMulPauli pauli => exact .refl F
  | leftMulPauliExp pauli => exact sameDeltas_xorPauli F _ _
  | leftMulControlledPauli control target =>
    exact (sameDeltas_xorPauli F _ _).trans (sameDeltas_xorPauli _ _ _)
  | leftMulPermutation permutation support =>
    refine sameDeltas_foldl _ (fun F src => ?_) (List.range permutation.length) F
    exact ⟨rfl, rfl, rfl⟩
  | leftMulClifford clifford support =>
    refine sameDeltas_foldl _ (fun F qubit => ?_) (List.range support.length) F
    exact ⟨rfl, rfl, rfl⟩

theorem carries_execute_noise (hfaults : faults.InUse n) (location : ℕ)
    (hF : F.Sized n) (h : F.Carries shot p) (hshot : shot < F.shotCount) :
    let F' := F.execute .noise (faults.shots location F.shotCount)
    F.SameDeltas F' ∧ F'.Sized n ∧
      F'.Carries shot ((faults location shot).elim p fun pauli => pauli.toPhased * p) := by
  have hloop : ∀ k, let F' := F.execute .noise (faults.shots location k)
      F.SameDeltas F' ∧ F'.Sized n ∧ F'.Carries shot
        (if shot < k then (faults location shot).elim p fun pauli => pauli.toPhased * p
          else p) := by
    intro k
    induction k with
    | zero => exact ⟨.refl F, hF, h⟩
    | succ k ih =>
      obtain ⟨hsame, hsized, hcarries⟩ := ih
      have hexecute : F.execute .noise (faults.shots location (k + 1)) =
          (faults location k).elim (F.execute .noise (faults.shots location k)) fun pauli =>
            (F.execute .noise (faults.shots location k)).applyPauliToShot k pauli := by
        rw [execute, FaultRealisation.shots, range_succ, filterMap_append, foldl_append]
        cases hfault : faults location k with
        | none => simp [hfault, execute, FaultRealisation.shots]
        | some pauli => simp [hfault, execute, FaultRealisation.shots]
      simp only [hexecute]
      cases hfault : faults location k with
      | none =>
        refine ⟨hsame, hsized, ?_⟩
        rcases Nat.lt_trichotomy shot k with hlt | rfl | hgt
        · rw [if_pos hlt] at hcarries
          rw [if_pos (by omega)]
          exact hcarries
        · rw [if_neg (by omega)] at hcarries
          rw [if_pos (by omega), hfault]
          exact hcarries
        · rw [if_neg (by omega)] at hcarries
          rw [if_neg (by omega)]
          exact hcarries
      | some pauli =>
        obtain ⟨hsized', hcarries'⟩ := carries_applyPauliToShot k (hfaults _ _ _ hfault)
          hsized hcarries
        refine ⟨hsame.trans (sameDeltas_xorPauli _ _ _), hsized', ?_⟩
        rcases Nat.lt_trichotomy shot k with hlt | rfl | hgt
        · rw [if_neg (by omega), if_pos hlt] at hcarries'
          rw [if_pos (by omega)]
          exact hcarries'
        · rw [if_pos rfl, if_neg (by omega)] at hcarries'
          rw [if_pos (by omega), hfault]
          exact hcarries'
        · rw [if_neg (by omega), if_neg (by omega)] at hcarries'
          rw [if_neg (by omega)]
          exact hcarries'
  have hall := hloop F.shotCount
  simp only [if_pos hshot] at hall
  exact hall

end FramePropagator

/-- A direct simulation is, in matching branches, the noiseless one with the frame of a shot applied
and the outcome deltas added. -/
structure Tracks (qubitCount outcomeCount shot : ℕ) (c d : OutcomeCompleteSimulation)
    (F : FramePropagator) :
    Prop where
  noiseless : c.Invariant c.qubitCount
  direct : d.Invariant d.qubitCount
  fits : d.CapacityFits
  sized : F.Sized qubitCount
  shot_lt : shot < F.shotCount
  nextOutcomeId : F.nextOutcomeId = c.outcomeCount
  outcomeRows : F.outcomeDeltas.rowCount = outcomeCount
  fresh : ∀ id, c.outcomeCount ≤ id → F.outcomeDeltas.row id = 0
  framed : ∃ frame, F.Carries shot frame ∧ ∀ r r' : Bits,
    MatchingBits c.outcomeIntroducesBranchBit (F.deltas shot) r.index r'.index →
      StabilizerMachine.Framed frame (F.deltas shot) (c.machine r) (d.machine r')

namespace Tracks

variable {n outcomeCount shot : ℕ} {c c' d : OutcomeCompleteSimulation} {F F' : FramePropagator}

theorem introducesBranchBit_eq (h : Tracks n outcomeCount shot c d F) :
    d.outcomeIntroducesBranchBit = c.outcomeIntroducesBranchBit := by
  obtain ⟨frame, -, hframed⟩ := h.framed
  obtain ⟨flips, -, hmatching⟩ := exists_matchingBits c.outcomeIntroducesBranchBit (F.deltas shot)
  exact (hframed 0 _ (hmatching 0)).introducesBranchBit

theorem outcomeCount_eq (h : Tracks n outcomeCount shot c d F) :
    d.outcomeCount = c.outcomeCount := by
  rw [OutcomeCompleteSimulation.outcomeCount, h.introducesBranchBit_eq,
    OutcomeCompleteSimulation.outcomeCount]

theorem of_machine_eq (h : Tracks n outcomeCount shot c d F) (hc' : c'.Invariant c.qubitCount)
    (hmachine : ∀ r, c'.machine r = c.machine r) : Tracks n outcomeCount shot c' d F := by
  have hintroduces : c'.outcomeIntroducesBranchBit = c.outcomeIntroducesBranchBit :=
    congrArg StabilizerMachine.introducesBranchBit (hmachine 0)
  have hcount : c'.outcomeCount = c.outcomeCount := congrArg List.length hintroduces
  refine { h with noiseless := ?_, nextOutcomeId := ?_, fresh := ?_, framed := ?_ }
  · rw [hc'.qubitCount_eq]
    exact hc'
  · rw [hcount]
    exact h.nextOutcomeId
  · rw [hcount]
    exact h.fresh
  · obtain ⟨frame, hcarries, hframed⟩ := h.framed
    refine ⟨frame, hcarries, fun r r' hmatching => ?_⟩
    rw [hmachine]
    exact hframed r r' (hintroduces ▸ hmatching)

variable {d' : OutcomeCompleteSimulation}

/-- A step that records nothing. -/
theorem of_sameDeltas (h : Tracks n outcomeCount shot c d F)
    (hc' : c'.Invariant c'.qubitCount) (hd' : d'.Invariant d'.qubitCount) (hfits : d'.CapacityFits)
    (hintroduces : c'.outcomeIntroducesBranchBit = c.outcomeIntroducesBranchBit)
    (hsized : F'.Sized n) (hsame : F.SameDeltas F')
    (hframed : ∀ frame, F.Carries shot frame → ∃ frame', F'.Carries shot frame' ∧
      ∀ r r', StabilizerMachine.Framed frame (F.deltas shot) (c.machine r) (d.machine r') →
        StabilizerMachine.Framed frame' (F.deltas shot) (c'.machine r) (d'.machine r')) :
    Tracks n outcomeCount shot c' d' F' := by
  have hcount : c'.outcomeCount = c.outcomeCount := congrArg List.length hintroduces
  refine ⟨hc', hd', hfits, hsized, ?_, ?_, ?_, ?_, ?_⟩
  · rw [hsame.shotCount]
    exact h.shot_lt
  · rw [hsame.nextOutcomeId, hcount]
    exact h.nextOutcomeId
  · rw [hsame.outcomeDeltas]
    exact h.outcomeRows
  · rw [hcount, hsame.outcomeDeltas]
    exact h.fresh
  · obtain ⟨frame, hcarries, hbefore⟩ := h.framed
    obtain ⟨frame', hcarries', hafter⟩ := hframed frame hcarries
    refine ⟨frame', hcarries', fun r r' hmatching => ?_⟩
    rw [hsame.deltas] at hmatching ⊢
    rw [hintroduces] at hmatching
    exact hafter r r' (hbefore r r' hmatching)

theorem insert (h : Tracks n outcomeCount shot c d F) (hfaults : faults.InUse n) (location : ℕ) :
    ∃ d', OutcomeCompleteSimulation.run
        ((faults location shot).toList.map fun pauli => .unitary (.leftMulPauli pauli)) d =
          some d' ∧
      Tracks n outcomeCount shot c d' (F.execute .noise (faults.shots location F.shotCount)) := by
  cases hfault : faults location shot with
  | none =>
    refine ⟨d, rfl, ?_⟩
    obtain ⟨frame, hcarries, -⟩ := h.framed
    obtain ⟨hsame, hsized, -⟩ :=
      carries_execute_noise hfaults location h.sized hcarries h.shot_lt
    refine h.of_sameDeltas h.noiseless h.direct h.fits rfl hsized hsame fun frame hcarries => ?_
    obtain ⟨-, -, hcarries'⟩ :=
      carries_execute_noise hfaults location h.sized hcarries h.shot_lt
    rw [hfault] at hcarries'
    exact ⟨frame, hcarries', fun _ _ hframed => hframed⟩
  | some pauli =>
    obtain ⟨frame, hcarries, -⟩ := h.framed
    obtain ⟨hsame, hsized, -⟩ :=
      carries_execute_noise hfaults location h.sized hcarries h.shot_lt
    have hop : (leftMulPauli pauli).WellFormed
        (qubitBound (leftMulPauli pauli).maxSupport) :=
      PauliUnitary.below_iff_maxSupport.mpr (qubitBound_le_iff.mp le_rfl)
    obtain ⟨d', hunitary, hd', hmachine, hfits⟩ := h.direct.unitary hop
    refine ⟨d', ?_, ?_⟩
    · change (d.unitary (.leftMulPauli pauli)).bind some = some d'
      rw [hunitary]
      rfl
    · refine h.of_sameDeltas h.noiseless ?_ (hfits.mpr h.fits) rfl hsized hsame
        fun frame hcarries => ?_
      · rw [hd'.qubitCount_eq]
        exact hd'
      · obtain ⟨-, -, hcarries'⟩ :=
          carries_execute_noise hfaults location h.sized hcarries h.shot_lt
        rw [hfault] at hcarries'
        refine ⟨_, hcarries', fun r r' hframed => ?_⟩
        rw [hmachine]
        exact hframed.insert pauli.toPhased

theorem of_recorded (h : Tracks n outcomeCount shot c d F)
    (hc' : c'.Invariant c'.qubitCount) (hd' : d'.Invariant d'.qubitCount) (hfits : d'.CapacityFits)
    (random : Bool)
    (hintroduces : c'.outcomeIntroducesBranchBit = c.outcomeIntroducesBranchBit ++ [random])
    (mask : Bits)
    (hframes : F'.xFrames = F.xFrames ∧ F'.zFrames = F.zFrames ∧ F'.shotCount = F.shotCount)
    (hnext : F'.nextOutcomeId = F.nextOutcomeId + 1)
    (hrowCount : F'.outcomeDeltas.rowCount = F.outcomeDeltas.rowCount)
    (hrow : ∀ id, F'.outcomeDeltas.row id =
      if id = c.outcomeCount then mask else F.outcomeDeltas.row id)
    (hframed : ∀ frame, F.Carries shot frame → ∀ deltas : ℕ → Bool,
      deltas c.outcomeCount = mask.index shot →
        ∀ r r' : Bits, (random = true → r'.index c.branchBitCount =
            (r.index c.branchBitCount ^^ mask.index shot)) →
          StabilizerMachine.Framed frame deltas (c.machine r) (d.machine r') →
            StabilizerMachine.Framed frame deltas (c'.machine r) (d'.machine r')) :
    Tracks n outcomeCount shot c' d' F' := by
  have hcount : c'.outcomeCount = c.outcomeCount + 1 := by
    rw [OutcomeCompleteSimulation.outcomeCount, hintroduces, length_append]
    rfl
  have hlast : F'.deltas shot c.outcomeCount = mask.index shot := by
    rw [FramePropagator.deltas, hrow, if_pos rfl]
  have hbefore : ∀ id, id < c.outcomeCount → F'.deltas shot id = F.deltas shot id := by
    intro id hid
    rw [FramePropagator.deltas, hrow, if_neg (by omega), FramePropagator.deltas]
  refine ⟨hc', hd', hfits, ⟨?_, ?_⟩, ?_, ?_, ?_, ?_, ?_⟩
  · rw [hframes.1]
    exact h.sized.xFrames
  · rw [hframes.2.1]
    exact h.sized.zFrames
  · rw [hframes.2.2]
    exact h.shot_lt
  · rw [hnext, h.nextOutcomeId, hcount]
  · exact hrowCount.trans h.outcomeRows
  · intro id hid
    rw [hrow, if_neg (by omega)]
    exact h.fresh id (by omega)
  · obtain ⟨frame, hcarries, hmachines⟩ := h.framed
    refine ⟨frame, ⟨?_, ?_⟩, fun r r' hmatching => ?_⟩
    · rw [hframes.1]
      exact hcarries.xBits
    · rw [hframes.2.1]
      exact hcarries.zBits
    · rw [hintroduces] at hmatching
      have hframed' : StabilizerMachine.Framed frame (F'.deltas shot) (c.machine r)
          (d.machine r') := by
        refine (hmachines r r' (hmatching.of_concat.congr hbefore)).congr rfl fun id hid => ?_
        rw [length_outcomes_machine] at hid
        exact (hbefore id hid).symm
      refine hframed frame hcarries _ hlast r r' (fun hrandom => ?_) hframed'
      subst hrandom
      have hbit := hmatching.last
      rw [← h.noiseless.branchBitCount_eq] at hbit
      exact hbit.trans (congrArg _ hlast)

open Classical in
/-- A measurement. -/
theorem measure (h : Tracks n outcomeCount shot c d F) {observable : PauliUnitary}
    (hc' : c'.Invariant c'.qubitCount) (hd' : d'.Invariant d'.qubitCount) (hfits : d'.CapacityFits)
    (hroom : c.outcomeCount < outcomeCount)
    (hc : ∀ r, c'.machine r = (c.machine r).measure r.index observable.toPhased)
    (hd : ∀ r, d'.machine r = (d.machine r).measure r.index observable.toPhased) :
    Tracks n outcomeCount shot c' d' (F.measure observable) := by
  have hgroup := fun r => h.noiseless.encodes.frame.isStabilizerGroup
    h.noiseless.encodes.fixesFrom (c.signs r)
  have hrecorded : ∀ r, c'.outcomeIntroducesBranchBit = c.outcomeIntroducesBranchBit ++
      [!decide (Determined (c.machine r).stabilizers observable.toPhased)] := by
    intro r
    have hmeasured : c'.outcomeIntroducesBranchBit =
        ((c.machine r).measure r.index observable.toPhased).introducesBranchBit :=
      congrArg StabilizerMachine.introducesBranchBit (hc r)
    rw [StabilizerMachine.measure] at hmeasured
    split at hmeasured
    · rename_i hdetermined
      rw [hmeasured, decide_eq_true hdetermined]
      rfl
    · rename_i hnot
      rw [hmeasured, decide_eq_false hnot]
      rfl
  refine h.of_recorded hc' hd' hfits _ (hrecorded 0) (F.anticommutationMask observable)
    ⟨rfl, rfl, rfl⟩ rfl rfl ?_ ?_
  · intro id
    rw [FramePropagator.measure, h.nextOutcomeId, h.fresh _ le_rfl, zero_add]
    exact row_setRow (by rw [h.outcomeRows]; exact hroom) _ id
  · intro frame hcarries deltas hdelta r r' hbit hframed
    have hanti := index_anticommutationMask observable hcarries
    rw [hc, hd]
    rw [hanti, anti_comm] at hdelta
    refine hframed.measure (hgroup r) rfl ?_ fun hnot => ?_
    · rw [length_outcomes_machine, hdelta]
    · have hsame := (hrecorded 0).symm.trans (hrecorded r)
      rw [append_cancel_left_eq, singleton_inj, decide_eq_false hnot] at hsame
      rw [length_outcomes_machine, hdelta,
        h.noiseless.branchBitCount_machine, hbit hsame, hanti, anti_comm]

theorem allocateRandomBit (h : Tracks n outcomeCount shot c d F)
    (hc' : c'.Invariant c'.qubitCount) (hd' : d'.Invariant d'.qubitCount) (hfits : d'.CapacityFits)
    (hc : ∀ r, c'.machine r = (c.machine r).allocateRandomBit r.index)
    (hd : ∀ r, d'.machine r = (d.machine r).allocateRandomBit r.index) :
    Tracks n outcomeCount shot c' d' F.skipOutcome := by
  refine h.of_recorded hc' hd' hfits true
    (congrArg StabilizerMachine.introducesBranchBit (hc 0)) 0 ⟨rfl, rfl, rfl⟩ rfl rfl ?_ ?_
  · intro id
    split_ifs with hid
    · exact h.fresh id hid.ge
    · rfl
  · intro frame hcarries deltas hdelta r r' hbit hframed
    rw [hc, hd]
    refine hframed.allocateRandomBit ?_
    rw [length_outcomes_machine, hdelta, h.noiseless.branchBitCount_machine]
    exact hbit rfl

theorem index_foldl_outcomeDeltas (F : FramePropagator) (shot : ℕ) (outcomes : List ℕ) :
    (outcomes.foldl (fun scratch outcomeId => scratch + F.outcomeDeltas.row outcomeId) 0).index
      shot = flipParity (F.deltas shot) outcomes := by
  have hloop : ∀ (outcomes : List ℕ) (mask : Bits),
      (outcomes.foldl (fun scratch outcomeId => scratch + F.outcomeDeltas.row outcomeId)
        mask).index shot =
          outcomes.foldl (fun parity id => parity ^^ F.deltas shot id) (mask.index shot) := by
    intro outcomes
    induction outcomes with
    | nil =>
      intro mask
      rfl
    | cons id outcomes ih =>
      intro mask
      rw [foldl_cons, foldl_cons, ih, Bits.index_add]
      rfl
  rw [hloop, Bits.index_zero, flipParity]

/-- Every operation is tracked, provided that a permutation meets a frame that it may move. -/
theorem apply (h : Tracks n outcomeCount shot c d F) {op : SimulationOp}
    (hop : op.WellFormed c.outcomeCount) (happly : c.apply op = some c')
    (hqubits : c'.qubitCount ≤ n) (houtcomes : c'.outcomeCount ≤ outcomeCount)
    (hmoves : F.MovesAlike shot (op.instruction c.outcomeCount)) : ∃ d', d.apply op = some d' ∧
      Tracks n outcomeCount shot c' d' (F.execute (op.instruction c.outcomeCount) []) := by
  obtain ⟨hc', hmachine⟩ := h.noiseless.of_apply hop happly
  rw [← hc'.qubitCount_eq] at hc'
  obtain ⟨d', happly', hd', hmachine', hfits⟩ :=
    h.direct.apply (h.outcomeCount_eq.symm ▸ hop) (h.direct.recordsOk h.fits op)
  rw [← hd'.qubitCount_eq] at hd'
  refine ⟨d', happly', ?_⟩
  have hgrows := OutcomeCompleteSimulation.grows_apply happly
  have hbound : qubitBound op.maxSupport ≤ n :=
    ((le_max_right _ _).trans hgrows.qubitCount).trans hqubits
  have hroom := hgrows.outcomeCount
  cases op with
  | unitary op =>
    have hwide : op.WellFormed n := hop.of_qubitBound_le hbound
    refine h.of_sameDeltas hc' hd' (hfits h.fits)
      (congrArg StabilizerMachine.introducesBranchBit (hmachine 0)) ?_
      (sameDeltas_execute_unitary F op) fun frame hcarries => ?_
    · obtain ⟨frame, hcarries, -⟩ := h.framed
      exact (carries_execute_unitary hwide hmoves h.sized hcarries).1
    · refine ⟨_, (carries_execute_unitary hwide hmoves h.sized hcarries).2,
        fun r r' hframed => ?_⟩
      rw [hmachine, hmachine']
      exact hframed.applyMap (conjugation_mul hwide)
  | conditionalPauli observable outcomes parity =>
    have hbelow : observable.Below n :=
      PauliUnitary.below_iff_maxSupport.mpr (qubitBound_le_iff.mp hbound)
    have hmask := index_foldl_outcomeDeltas F shot outcomes
    refine h.of_sameDeltas hc' hd' (hfits h.fits) ?_ ?_
      (sameDeltas_xorPauli F _ _) fun frame hcarries => ?_
    · refine (congrArg StabilizerMachine.introducesBranchBit (hmachine 0)).trans ?_
      simp only [SimulationOp.step, StabilizerMachine.conditionalPauli]
      split_ifs <;> rfl
    · obtain ⟨frame, hcarries, -⟩ := h.framed
      exact (carries_xorPauli hbelow _ h.sized hcarries).1
    · refine ⟨_, (carries_xorPauli hbelow _ h.sized hcarries).2,
        fun r r' hframed => ?_⟩
      rw [hmachine, hmachine', hmask]
      refine hframed.conditionalPauli _ (fun id hid => ?_) parity
      rw [length_outcomes_machine]
      exact hop id hid
  | measure observable =>
    exact h.measure hc' hd' (hfits h.fits) (by rw [SimulationOp.outcomeCount] at hroom; omega)
      hmachine hmachine'
  | measureWithHint observable hint =>
    exact h.measure hc' hd' (hfits h.fits) (by rw [SimulationOp.outcomeCount] at hroom; omega)
      hmachine hmachine'
  | allocateRandomBit => exact h.allocateRandomBit hc' hd' (hfits h.fits) hmachine hmachine'

end Tracks

namespace FaultySimulation

variable {K : Type} {simulation final : FaultySimulation K}

theorem grows_apply {call : FaultyCall K} (happly : simulation.apply call = some final) :
    simulation.noiseless.qubitCount ≤ final.noiseless.qubitCount ∧
      simulation.noiseless.outcomeCount ≤ final.noiseless.outcomeCount := by
  have hgeneral : ∀ {c : OutcomeCompleteSimulation} {outcomes maxQubitId},
      simulation.noiseless.Grows c outcomes maxQubitId →
        simulation.noiseless.qubitCount ≤ c.qubitCount ∧
          simulation.noiseless.outcomeCount ≤ c.outcomeCount := by
    intro c outcomes maxQubitId hgrows
    exact ⟨(le_max_left _ _).trans hgrows.qubitCount, by rw [hgrows.outcomeCount]; omega⟩
  cases call with
  | op op =>
    obtain ⟨noiseless, hnoiseless, rfl⟩ := map_eq_some_iff.mp happly
    exact hgeneral (OutcomeCompleteSimulation.grows_apply hnoiseless)
  | applyFault fault =>
    cases happly
    exact ⟨le_rfl, le_rfl⟩
  | reserveQubits newQubitCapacity =>
    obtain ⟨noiseless, hnoiseless, rfl⟩ := map_eq_some_iff.mp happly
    exact hgeneral (grows_reserveQubits hnoiseless)
  | reserveOutcomes newOutcomeCapacity newBranchBitCapacity =>
    obtain ⟨noiseless, hnoiseless, rfl⟩ := map_eq_some_iff.mp happly
    exact hgeneral (grows_reserveOutcomes hnoiseless)

theorem grows_run {calls : List (FaultyCall K)} (hrun : run calls simulation = some final) :
    simulation.noiseless.qubitCount ≤ final.noiseless.qubitCount ∧
      simulation.noiseless.outcomeCount ≤ final.noiseless.outcomeCount := by
  refine foldlM_induction (fun _ final =>
    simulation.noiseless.qubitCount ≤ final.noiseless.qubitCount ∧
      simulation.noiseless.outcomeCount ≤ final.noiseless.outcomeCount)
    ⟨le_rfl, le_rfl⟩ ?_ hrun
  intro _ call before after hbefore happly
  obtain ⟨hqubits, houtcomes⟩ := grows_apply happly
  exact ⟨hbefore.1.trans hqubits, hbefore.2.trans houtcomes⟩

theorem tracks_run (shot location : ℕ) {calls : List (FaultyCall K)}
    (hcalls : SimulationOp.WellFormedFrom simulation.noiseless.outcomeCount
      (calls.filterMap FaultyCall.operation)) (hrun : run calls simulation = some final)
    (hfaults : faults.InUse final.noiseless.qubitCount) :
    ∃ circuit, final.circuit = simulation.circuit ++ circuit ∧
      ∀ {d : OutcomeCompleteSimulation} {F : FramePropagator},
        Tracks final.noiseless.qubitCount final.noiseless.outcomeCount shot
          simulation.noiseless d F → F.ReplayMovesAlike faults shot location circuit →
              ∃ d', OutcomeCompleteSimulation.run (withFaults faults shot location calls) d =
                  some d' ∧ Tracks final.noiseless.qubitCount final.noiseless.outcomeCount shot
                  final.noiseless d' (F.replay faults location circuit) := by
  induction calls generalizing simulation location with
  | nil =>
    cases hrun
    exact ⟨[], (append_nil _).symm, fun {d F} h _ => ⟨d, rfl, h⟩⟩
  | cons call calls ih =>
    obtain ⟨next, happly, hrun⟩ := bind_eq_some_iff.mp hrun
    obtain ⟨hqubits, houtcomes⟩ := grows_run hrun
    cases call with
    | op op =>
      obtain ⟨noiseless, hnoiseless, rfl⟩ := map_eq_some_iff.mp happly
      have hgrows := OutcomeCompleteSimulation.grows_apply hnoiseless
      obtain ⟨circuit, hcircuit, htracks⟩ := ih location
        (by rw [hgrows.outcomeCount]; exact hcalls.2) hrun
      refine ⟨.op (op.instruction simulation.noiseless.outcomeCount) :: circuit, ?_,
        fun {d F} h hmoves => ?_⟩
      · rw [hcircuit, append_assoc]
        rfl
      · obtain ⟨d₁, hd₁, h₁⟩ := h.apply hcalls.1 hnoiseless hqubits houtcomes hmoves.1
        obtain ⟨d', hd', h'⟩ := htracks h₁ hmoves.2
        refine ⟨d', ?_, h'⟩
        rw [withFaults, OutcomeCompleteSimulation.run, foldlM_cons, hd₁]
        exact hd'
    | applyFault fault =>
      obtain rfl := some_inj.mp happly
      obtain ⟨circuit, hcircuit, htracks⟩ := ih (location + 1) (by exact hcalls) hrun
      refine ⟨.noise fault :: circuit, ?_, fun {d F} h hmoves => ?_⟩
      · rw [hcircuit, append_assoc]
        rfl
      · obtain ⟨d₁, hd₁, h₁⟩ := h.insert hfaults location
        obtain ⟨d', hd', h'⟩ := htracks h₁ hmoves
        refine ⟨d', ?_, h'⟩
        rw [OutcomeCompleteSimulation.run] at hd₁
        rw [withFaults, OutcomeCompleteSimulation.run, foldlM_append, hd₁]
        exact hd'
    | reserveQubits newQubitCapacity =>
      obtain ⟨noiseless, hnoiseless, rfl⟩ := map_eq_some_iff.mp happly
      have hgrows := grows_reserveQubits hnoiseless
      obtain ⟨circuit, hcircuit, htracks⟩ := ih location
        (by rw [hgrows.outcomeCount]; exact hcalls) hrun
      refine ⟨circuit, hcircuit, fun {d F} h hmoves => ?_⟩
      obtain ⟨hnext, hmachine⟩ := h.noiseless.reserveQubits hnoiseless
      obtain ⟨d', hd', h'⟩ := htracks (h.of_machine_eq hnext hmachine) hmoves
      exact ⟨d', hd', h'⟩
    | reserveOutcomes newOutcomeCapacity newBranchBitCapacity =>
      obtain ⟨noiseless, hnoiseless, rfl⟩ := map_eq_some_iff.mp happly
      have hgrows := grows_reserveOutcomes hnoiseless
      obtain ⟨circuit, hcircuit, htracks⟩ := ih location
        (by rw [hgrows.outcomeCount]; exact hcalls) hrun
      refine ⟨circuit, hcircuit, fun {d F} h hmoves => ?_⟩
      obtain ⟨hnext, hmachine⟩ := h.noiseless.reserveOutcomes hnoiseless
      obtain ⟨d', hd', h'⟩ := htracks (h.of_machine_eq hnext hmachine) hmoves
      exact ⟨d', hd', h'⟩

end FaultySimulation

end QdkEc
