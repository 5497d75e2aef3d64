import QdkEc.Lib.StabilizerGroup

/-!
# The stabilizer machine

This module specifies a stabilizer simulation without any data structure: the
state is the set of signed stabilizers together with the outcomes recorded so
far, and every random outcome is read from a source of bits by its index.
-/

namespace QdkEc

open PhasedPauli

/-- Some sign of an operator is a stabilizer. -/
def Determined (S : Set PhasedPauli) (P : PhasedPauli) : Prop :=
  ∃ b, iPow (twist b) * P ∈ S

/-- A stabilizer state with its record of outcomes. -/
@[ext]
structure StabilizerMachine where
  stabilizers : Set PhasedPauli
  outcomes : List Bool
  introducesBranchBit : List Bool

namespace StabilizerMachine

/-- The number of random outcomes. -/
def branchBitCount (s : StabilizerMachine) : ℕ :=
  s.introducesBranchBit.count true

/-- Append an outcome to the record. -/
def record (s : StabilizerMachine) (outcome random : Bool) : StabilizerMachine :=
  { s with
    outcomes := s.outcomes ++ [outcome]
    introducesBranchBit := s.introducesBranchBit ++ [random] }

/-- Apply a unitary that conjugates operators by a map. -/
def applyMap (s : StabilizerMachine) (φ : PhasedPauli → PhasedPauli) : StabilizerMachine :=
  { s with stabilizers := φ '' s.stabilizers }

def allocateRandomBit (bits : ℕ → Bool) (s : StabilizerMachine) : StabilizerMachine :=
  s.record (bits s.branchBitCount) true

/-- The parity of the recorded outcomes in a list. -/
def totalParity (outcomes : List Bool) (ids : List ℕ) : Bool :=
  ids.foldl (fun parity id => parity ^^ outcomes.getD id false) false

/-- Apply a Pauli when the parity of some outcomes has the given value. -/
def conditionalPauli (s : StabilizerMachine) (P : PhasedPauli) (ids : List ℕ) (parity : Bool) :
    StabilizerMachine :=
  if totalParity s.outcomes ids = parity then s.applyMap (conjugate P) else s

open Classical in
/-- Measure an operator: its sign is the outcome when it is a stabilizer up to sign, otherwise the
outcome is a fresh random bit and the stabilizers change as the outcome demands. -/
noncomputable def measure (bits : ℕ → Bool) (s : StabilizerMachine) (P : PhasedPauli) :
    StabilizerMachine :=
  if Determined s.stabilizers P then
    s.record (decide (iPow 2 * P ∈ s.stabilizers)) false
  else
    { s.allocateRandomBit bits with
      stabilizers := measured s.stabilizers P (bits s.branchBitCount) }

@[simp]
theorem branchBitCount_record (s : StabilizerMachine) (outcome random : Bool) :
    (s.record outcome random).branchBitCount = s.branchBitCount + if random then 1 else 0 := by
  cases random <;> simp [branchBitCount, record]

@[simp]
theorem branchBitCount_applyMap (s : StabilizerMachine) (φ : PhasedPauli → PhasedPauli) :
    (s.applyMap φ).branchBitCount = s.branchBitCount :=
  rfl

variable {s : StabilizerMachine} {P : PhasedPauli}

variable (bits : ℕ → Bool)

theorem measure_of_determined
    {outcome : Bool} (hunique : ∀ b, iPow (twist b) * P ∈ s.stabilizers ↔ b = outcome) :
    s.measure bits P = s.record outcome false := by
  have hdetermined : Determined s.stabilizers P := ⟨outcome, (hunique outcome).mpr rfl⟩
  rw [measure, if_pos hdetermined]
  congr 1
  have hminus := hunique true
  rw [twist_true] at hminus
  cases outcome <;> simp [hminus]

theorem measure_of_not_determined (h : ¬ Determined s.stabilizers P) :
    s.measure bits P = { s.allocateRandomBit bits with
        stabilizers := measured s.stabilizers P (bits s.branchBitCount) } := by
  rw [measure, if_neg h]

/-- The postulates of a measurement of `P` that takes the machine `m` to `m'`, and of a second one
that takes `m'` to `m''`. -/
structure MeasurementPostulates (bits : ℕ → Bool) (P : PhasedPauli) (m m' m'' : StabilizerMachine) :
    Prop where
  determined : ∀ sign, iPow (twist sign) * P ∈ m.stabilizers →
    m'.outcomes = m.outcomes ++ [sign] ∧
      m'.introducesBranchBit = m.introducesBranchBit ++ [false]
  random : ¬ Determined m.stabilizers P →
    m'.outcomes = m.outcomes ++ [bits m.branchBitCount] ∧
      m'.introducesBranchBit = m.introducesBranchBit ++ [true]
  commuting : ∀ p ∈ m.stabilizers, anti P p = false → p ∈ m'.stabilizers
  repeated : ∃ outcome, m'.outcomes = m.outcomes ++ [outcome] ∧
    iPow (twist outcome) * P ∈ m'.stabilizers ∧ m''.outcomes = m'.outcomes ++ [outcome] ∧
      m''.introducesBranchBit = m'.introducesBranchBit ++ [false]

theorem measurementPostulates_measure {S S' : Subgroup PhasedPauli} (hS : IsStabilizerGroup S)
    (hS' : IsStabilizerGroup S') (bits : ℕ → Bool) (hP : OrderTwo P)
    {m : StabilizerMachine} (hm : m.stabilizers = S) (hm' : (m.measure bits P).stabilizers = S') :
    MeasurementPostulates bits P m (m.measure bits P) ((m.measure bits P).measure bits P) := by
  have hunique : ∀ {T : Subgroup PhasedPauli}, IsStabilizerGroup T → ∀ {s : StabilizerMachine},
      s.stabilizers = T → ∀ {sign}, iPow (twist sign) * P ∈ s.stabilizers →
        s.measure bits P = s.record sign false := by
    intro T hT s hs sign hsign
    refine measure_of_determined bits fun b => ⟨fun hb => ?_, fun hb => hb ▸ hsign⟩
    rw [hs] at hb hsign
    exact hT.sign_unique hb hsign
  have hafter : ∀ outcome, iPow (twist outcome) * P ∈ (m.measure bits P).stabilizers →
      (m.measure bits P).outcomes = m.outcomes ++ [outcome] →
        ∃ outcome, (m.measure bits P).outcomes = m.outcomes ++ [outcome] ∧
          iPow (twist outcome) * P ∈ (m.measure bits P).stabilizers ∧
            ((m.measure bits P).measure bits P).outcomes =
                (m.measure bits P).outcomes ++ [outcome] ∧
              ((m.measure bits P).measure bits P).introducesBranchBit =
                (m.measure bits P).introducesBranchBit ++ [false] := by
    intro outcome hmem houtcome
    refine ⟨outcome, houtcome, hmem, ?_, ?_⟩ <;> rw [hunique hS' hm' hmem] <;> rfl
  by_cases hdetermined : Determined m.stabilizers P
  · obtain ⟨sign, hsign⟩ := hdetermined
    have hmeasure := hunique hS hm hsign
    refine ⟨fun sign' hsign' => ?_, fun hnot => absurd ⟨sign, hsign⟩ hnot, fun p hp _ => ?_, ?_⟩
    · rw [hunique hS hm hsign']
      exact ⟨rfl, rfl⟩
    · rw [hmeasure]
      exact hp
    · refine hafter sign ?_ ?_ <;> rw [hmeasure]
      · exact hsign
      · rfl
  · have hmeasure := measure_of_not_determined bits hdetermined
    refine ⟨fun sign hsign => absurd ⟨sign, hsign⟩ hdetermined, fun _ => ?_, fun p hp hcomm => ?_,
      ?_⟩
    · rw [hmeasure]
      exact ⟨rfl, rfl⟩
    · rw [hmeasure]
      exact ⟨hcomm, Or.inl hp⟩
    · refine hafter (bits m.branchBitCount) ?_ ?_ <;> rw [hmeasure]
      · have hmem : iPow (twist (bits m.branchBitCount)) * P ∈
            measured S P (bits m.branchBitCount) := observable_mem_measured hP
        rw [← hm] at hmem
        exact hmem
      · rfl

theorem hinted_eq_measure {P N : PhasedPauli}
    (hnot : ¬ Determined s.stabilizers P)
    (hcollapse : ∀ flip, collapse P N flip '' s.stabilizers = measured s.stabilizers P flip)
    {hint : PhasedPauli} (hhint : conjugate hint = conjugate N) {id : ℕ}
    (hid : id = s.outcomes.length) :
    ((s.applyMap (pauliExp (iPow 3 * (P * N)))).allocateRandomBit bits).conditionalPauli hint [id]
      true = s.measure bits P := by
  subst hid
  have hparity : totalParity (s.outcomes ++ [bits s.branchBitCount]) [s.outcomes.length] =
      bits s.branchBitCount := by
    simp [totalParity]
  have hexp := hcollapse (bits s.branchBitCount)
  rw [measure_of_not_determined bits hnot, conditionalPauli]
  simp only [allocateRandomBit, record, branchBitCount_applyMap]
  change (if totalParity (s.outcomes ++ [bits s.branchBitCount]) [s.outcomes.length] = true then _
    else _) = _
  rw [hparity, hhint]
  cases hbit : bits s.branchBitCount with
  | false =>
    refine StabilizerMachine.ext ?_ ?_ rfl
    · rw [hbit] at hexp
      exact hexp
    · rfl
  | true =>
    refine StabilizerMachine.ext ?_ ?_ rfl
    · rw [hbit] at hexp
      simp only [applyMap, Set.image_image]
      exact hexp
    · rfl

end StabilizerMachine

end QdkEc
