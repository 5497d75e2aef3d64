import QdkEc.Pauliverse.FaultySimulation
import Mathlib.Data.List.AList

/-!
# Correlated faults

This module models how faults draw from generators, word by word.  A fault with a
correlation has a generator of its own, whose seed it shares with the faults that are
correlated with it, so that all of them read the same words.  This goes on up to a
shot at which the condition of only one of them holds: the other fault draws no element of its
distribution there, and it reads other words after that.
-/

namespace QdkEc

/-- The number of Paulis on some qubits that are not the identity; `none` is a panic. -/
def depolarizingPauliCount (qubitCount : ℕ) : Option ℕ :=
  if 0 < qubitCount ∧ qubitCount ≤ maxDepolarizingQubits then some (2 ^ (qubitCount * 2) - 1)
  else none

/-- The number of elements of a distribution. -/
def PauliDistribution.len {K : Type} : PauliDistribution K → Option ℕ
  | .single _ => some 1
  | .depolarizingOnQubits qubits => depolarizingPauliCount qubits.length
  | .uniformOver paulis => some paulis.length
  | .weighted paulis _ => some paulis.length

/-- Check the size of a correlated fault against those before it; `none` is a panic. -/
def validateFault {K : Type} (sizes : AList fun _ : ℕ => ℕ) (fault : PauliFault K)
    (correlationId : ℕ) : Option (Except String (AList fun _ : ℕ => ℕ)) := do
  let size ← fault.distribution.len
  match sizes.lookup correlationId with
  | some expected =>
    if size ≠ expected then
      some (.error (s!"Correlated faults with correlation_id {correlationId} have mismatched " ++
        s!"distribution sizes: {expected} vs {size}"))
    else some (.ok sizes)
  | none => some (.ok (sizes.insert correlationId size))

/-- Correlated faults have distributions of one size. -/
def validateFrom {K : Type} (sizes : AList fun _ : ℕ => ℕ) :
    List (FaultyInstruction K) → Option (Except String Unit)
  | [] => some (.ok ())
  | .op _ :: rest => validateFrom sizes rest
  | .noise fault :: rest =>
    match fault.correlationId with
    | none => validateFrom sizes rest
    | some correlationId =>
      match validateFault sizes fault correlationId with
      | none => none
      | some (.error message) => some (.error message)
      | some (.ok sizes) => validateFrom sizes rest

/-- Correlated faults of a circuit have distributions of one size. -/
def validateCorrelatedFaults {K : Type} (circuit : List (FaultyInstruction K)) :
    Option (Except String Unit) :=
  validateFrom ∅ circuit

/-- How words are read: the skip that a word gives for a probability, a number below a bound with
the words it takes, and the place of a word in a cumulative distribution. -/
structure WordFunctions (K : Type) where
  nextSkip : K → ℕ → ℕ
  randomRange : ℕ → (ℕ → ℕ) → ℕ → ℕ × ℕ
  partitionPoint : List K → ℕ → ℕ

/-- The number of words that are read at once for skips. -/
def batchSize : ℕ :=
  1024

/-- The position in the words of a generator, the buffered words and the next one of them. -/
structure SamplerState where
  position : ℕ
  bufferStart : ℕ
  bufferIndex : ℕ

section Sampling

variable {K : Type} [Zero K] [LinearOrder K] (functions : WordFunctions K) (fuel shotCount : ℕ)

/-- The word for the next skip; an empty buffer is refilled. -/
def SamplerState.next (state : SamplerState) : ℕ × SamplerState :=
  let filled : SamplerState :=
    if batchSize ≤ state.bufferIndex then ⟨state.position + batchSize, state.position, 0⟩
    else state
  (filled.bufferStart + filled.bufferIndex, { filled with bufferIndex := filled.bufferIndex + 1 })

/-- Read words until one is below the limit; `none` means that none of them is. -/
def nonIdentityIndex (qubitCount : ℕ) (words : ℕ → ℕ) : ℕ → ℕ → Option (ℕ × ℕ)
  | 0, _ => none
  | fuel + 1, position =>
    let count := 2 ^ (qubitCount * 2) - 1
    let limit := 2 ^ 64 - 1 - (2 ^ 64 - 1) % count
    if words position < limit then some (words position % count, position + 1)
    else nonIdentityIndex qubitCount words fuel (position + 1)

/-- The index of an element of a distribution and the position after the words it takes. -/
def PauliDistribution.sampleIndex (words : ℕ → ℕ) (position : ℕ) :
    PauliDistribution K → Option (ℕ × ℕ)
  | .single _ => some (0, position)
  | .depolarizingOnQubits qubits => nonIdentityIndex qubits.length words fuel position
  | .uniformOver paulis => some (functions.randomRange paulis.length words position)
  | .weighted paulis cdf =>
    some (min (functions.partitionPoint cdf (words position)) (paulis.length - 1), position + 1)

/-- The shots that are drawn, each with the index of an element unless the condition fails there,
and the position of the generator after them; each round goes on at least one shot. -/
def injectLoop (probability : K) (condition : Option OutcomeCondition) (outcomes : ℕ → List Bool)
    (words : ℕ → ℕ) (sampleIndex : ℕ → Option (ℕ × ℕ)) :
    ℕ → SamplerState → ℕ → Option (List (ℕ × Option ℕ) × ℕ)
  | 0, state, _ => some ([], state.position)
  | rounds + 1, state, start => do
      let (word, state) := state.next
      let shot := start + functions.nextSkip probability (words word)
      if shotCount ≤ shot then some ([], state.position)
      else if occurs condition (outcomes shot) then do
        let (index, position) ← sampleIndex state.position
        let rest ← injectLoop probability condition outcomes words sampleIndex rounds
          { state with position := position } (shot + 1)
        some ((shot, some index) :: rest.1, rest.2)
      else do
        let rest ← injectLoop probability condition outcomes words sampleIndex rounds state
          (shot + 1)
        some ((shot, none) :: rest.1, rest.2)

/-- A depolarizing fault without a condition. -/
def injectDepolarizingFaults (probability : K) (qubits : List ℕ) (outcomes : ℕ → List Bool)
    (words : ℕ → ℕ) (position : ℕ) : Option (List (ℕ × Option ℕ) × ℕ) :=
  if qubits = [] then some ([], position)
  else
    injectLoop functions shotCount probability none outcomes words
      (nonIdentityIndex qubits.length words fuel) (shotCount + 1) ⟨position, 0, batchSize⟩ 0

/-- A fault on the words of a generator. -/
def injectNoiseWithRng (fault : PauliFault K) (outcomes : ℕ → List Bool) (words : ℕ → ℕ)
    (position : ℕ) : Option (List (ℕ × Option ℕ) × ℕ) :=
  match fault.condition, fault.distribution with
  | none, .depolarizingOnQubits qubits =>
    injectDepolarizingFaults functions fuel shotCount fault.probability qubits outcomes words
      position
  | condition, distribution =>
    injectLoop functions shotCount fault.probability condition outcomes words
      (fun position => distribution.sampleIndex functions fuel words position) (shotCount + 1)
      ⟨position, 0, batchSize⟩ 0

/-- A fault of a circuit, with the words of a seed if it is correlated. -/
def injectFault (fault : PauliFault K) (baseSeed : ℕ) (outcomes : ℕ → List Bool)
    (seeded : ℕ → ℕ → ℕ) (words : ℕ → ℕ) (position : ℕ) : Option (List (ℕ × Option ℕ) × ℕ) :=
  if fault.probability ≤ 0 then some ([], position)
  else
    match fault.correlationId with
    | some correlationId => do
        let drawn ← injectNoiseWithRng functions fuel shotCount fault outcomes
          (seeded ((baseSeed + correlationId) % 2 ^ 64)) 0
        some (drawn.1, position)
    | none => injectNoiseWithRng functions fuel shotCount fault outcomes words position

/-- The shots that are drawn for each instruction of a circuit. -/
def simulateCircuit (baseSeed : ℕ) (outcomes : ℕ → List Bool) (seeded : ℕ → ℕ → ℕ)
    (words : ℕ → ℕ) : ℕ → List (FaultyInstruction K) → Option (List (List (ℕ × Option ℕ)))
  | _, [] => some []
  | position, .op _ :: rest => do
      let drawn ← simulateCircuit baseSeed outcomes seeded words position rest
      some ([] :: drawn)
  | position, .noise fault :: rest => do
      let (drawn, position) ← injectFault functions fuel shotCount fault baseSeed outcomes seeded
        words position
      let others ← simulateCircuit baseSeed outcomes seeded words position rest
      some (drawn :: others)

end Sampling

/-- The same shots are drawn with the same indices, up to a shot at which the condition of only one
of the faults fails. -/
inductive Coupled : List (ℕ × Option ℕ) → List (ℕ × Option ℕ) → Prop
  | nil : Coupled [] []
  | same {shot : ℕ} {index : Option ℕ} {drawn drawn' : List (ℕ × Option ℕ)} :
      Coupled drawn drawn' → Coupled ((shot, index) :: drawn) ((shot, index) :: drawn')
  | suppressed {shot : ℕ} {index index' : Option ℕ} {drawn drawn' : List (ℕ × Option ℕ)} :
      ¬(index.isSome ↔ index'.isSome) →
      Coupled ((shot, index) :: drawn) ((shot, index') :: drawn')

/-- Distributions choose elements in the same way; weights are the same. -/
def PauliDistribution.SameKind {K : Type} : PauliDistribution K → PauliDistribution K → Prop
  | .single _, .single _ => True
  | .depolarizingOnQubits _, .depolarizingOnQubits _ => True
  | .uniformOver _, .uniformOver _ => True
  | .weighted _ cdf, .weighted _ cdf' => cdf = cdf'
  | _, _ => False

section Coupling

variable {K : Type} {functions : WordFunctions K} {fuel shotCount : ℕ} {outcomes : ℕ → List Bool}
  {words : ℕ → ℕ} {drawn drawn' : List (ℕ × Option ℕ) × ℕ}

theorem PauliDistribution.SameKind.sampleIndex_eq {distribution distribution' : PauliDistribution K}
    {size : ℕ} (h : distribution.SameKind distribution') (hlen : distribution.len = some size)
    (hlen' : distribution'.len = some size) (position : ℕ) :
    distribution.sampleIndex functions fuel words position =
      distribution'.sampleIndex functions fuel words position := by
  cases distribution <;> cases distribution' <;> try contradiction
  case single => rfl
  case depolarizingOnQubits qubits qubits' =>
    obtain ⟨-, hsize⟩ := Option.ite_none_right_eq_some.mp hlen
    obtain ⟨-, hsize'⟩ := Option.ite_none_right_eq_some.mp hlen'
    have hpow : 2 ^ (qubits.length * 2) = 2 ^ (qubits'.length * 2) := by
      have := Nat.one_le_two_pow (n := qubits.length * 2)
      have := Nat.one_le_two_pow (n := qubits'.length * 2)
      simp only [Option.some_inj] at hsize hsize'
      omega
    have := Nat.pow_right_injective le_rfl hpow
    rw [sampleIndex, sampleIndex, show qubits.length = qubits'.length by omega]
  case uniformOver paulis paulis' =>
    rw [sampleIndex, sampleIndex, Option.some_inj.mp (hlen.trans hlen'.symm)]
  case weighted paulis cdf paulis' cdf' =>
    obtain rfl : cdf = cdf' := h
    rw [sampleIndex, sampleIndex, Option.some_inj.mp (hlen.trans hlen'.symm)]

theorem injectNoiseWithRng_eq {fault : PauliFault K} {size : ℕ}
    (hlen : fault.distribution.len = some size) (position : ℕ) :
    injectNoiseWithRng functions fuel shotCount fault outcomes words position =
      injectLoop functions shotCount fault.probability fault.condition outcomes words
        (fun position => fault.distribution.sampleIndex functions fuel words position)
        (shotCount + 1) ⟨position, 0, batchSize⟩ 0 := by
  rw [injectNoiseWithRng]
  split
  next qubits hcondition hdistribution =>
      have hne : qubits ≠ [] := by
        rintro rfl
        rw [hdistribution] at hlen
        cases hlen
      simp only [injectDepolarizingFaults, if_neg hne, hcondition, hdistribution,
        PauliDistribution.sampleIndex]
  next => rfl

theorem injectLoop_coupled {probability : K} {condition condition' : Option OutcomeCondition}
    {sampleIndex : ℕ → Option (ℕ × ℕ)} {rounds : ℕ} {state : SamplerState} {start : ℕ}
    (h : injectLoop functions shotCount probability condition outcomes words sampleIndex rounds
      state start = some drawn)
    (h' : injectLoop functions shotCount probability condition' outcomes words sampleIndex rounds
      state start = some drawn') : Coupled drawn.1 drawn'.1 := by
  induction rounds generalizing state start drawn drawn' with
  | zero =>
    cases h
    cases h'
    exact .nil
  | succ rounds ih =>
    simp only [injectLoop] at h h'
    split_ifs at h h' with hend hoccurs hoccurs' hoccurs'
    · cases h
      cases h'
      exact .nil
    all_goals simp only [Option.bind_eq_bind, Option.bind_eq_some_iff, Option.some_inj] at h h'
    · obtain ⟨first, hfirst, rest, hrest, rfl⟩ := h
      obtain ⟨first', hfirst', rest', hrest', rfl⟩ := h'
      obtain rfl := Option.some_inj.mp (hfirst.symm.trans hfirst')
      exact .same (ih hrest hrest')
    · obtain ⟨-, -, -, -, rfl⟩ := h
      obtain ⟨-, -, rfl⟩ := h'
      exact .suppressed (by simp)
    · obtain ⟨-, -, rfl⟩ := h
      obtain ⟨-, -, -, -, rfl⟩ := h'
      exact .suppressed (by simp)
    · obtain ⟨rest, hrest, rfl⟩ := h
      obtain ⟨rest', hrest', rfl⟩ := h'
      exact .same (ih hrest hrest')

theorem lookup_of_validateFault {sizes sizes' : AList fun _ : ℕ => ℕ} {fault : PauliFault K}
    {correlationId : ℕ} (h : validateFault sizes fault correlationId = some (.ok sizes')) :
    (∃ size, fault.distribution.len = some size ∧ sizes'.lookup correlationId = some size) ∧
      ∀ id size, sizes.lookup id = some size → sizes'.lookup id = some size := by
  obtain ⟨size, hsize, h⟩ := Option.bind_eq_some_iff.mp h
  split at h
  next expected hexpected =>
      split_ifs at h with hne
      · cases h
      · obtain rfl : sizes = sizes' := by simpa using h
        exact ⟨⟨size, hsize, by rw [hexpected, not_not.mp hne]⟩, fun _ _ => id⟩
  next hnone =>
      obtain rfl : sizes.insert correlationId size = sizes' := by simpa using h
      refine ⟨⟨size, hsize, AList.lookup_insert _⟩, fun id other hid => ?_⟩
      rw [AList.lookup_insert_ne (by rintro rfl; simp [hnone] at hid), hid]

theorem exists_len_of_validateFrom {circuit : List (FaultyInstruction K)}
    {sizes : AList fun _ : ℕ => ℕ} (h : validateFrom sizes circuit = some (.ok ())) :
    ∃ sizes' : AList fun _ : ℕ => ℕ,
      (∀ id size, sizes.lookup id = some size → sizes'.lookup id = some size) ∧
        ∀ fault, .noise fault ∈ circuit → ∀ id, fault.correlationId = some id →
          ∃ size, fault.distribution.len = some size ∧ sizes'.lookup id = some size := by
  induction circuit generalizing sizes with
  | nil => exact ⟨sizes, fun _ _ => id, by simp⟩
  | cons instruction rest ih =>
    cases instruction with
    | op _ =>
      obtain ⟨sizes', hsizes, hrest⟩ := ih h
      exact ⟨sizes', hsizes, fun fault hfault => hrest fault (by simpa using hfault)⟩
    | noise fault =>
      rw [validateFrom] at h
      split at h
      next hnone =>
          obtain ⟨sizes', hsizes, hrest⟩ := ih h
          refine ⟨sizes', hsizes, fun other hother id hid => ?_⟩
          obtain rfl | hother : other = fault ∨ .noise other ∈ rest := by simpa using hother
          · simp [hnone] at hid
          · exact hrest other hother id hid
      next correlationId hcorrelated =>
          split at h
          · cases h
          · cases h
          next hfault =>
              obtain ⟨⟨size, hsize, hlookup⟩, hkeep⟩ := lookup_of_validateFault hfault
              obtain ⟨sizes', hsizes, hrest⟩ := ih h
              refine ⟨sizes', fun id _ hid => hsizes id _ (hkeep id _ hid), fun other hother id
                hid => ?_⟩
              obtain rfl | hother : other = fault ∨ .noise other ∈ rest := by simpa using hother
              · obtain rfl := Option.some_inj.mp (hcorrelated.symm.trans hid)
                exact ⟨size, hsize, hsizes _ _ hlookup⟩
              · exact hrest other hother id hid

theorem exists_len_of_validateCorrelatedFaults {circuit : List (FaultyInstruction K)}
    (h : validateCorrelatedFaults circuit = some (.ok ())) {fault fault' : PauliFault K}
    (hfault : .noise fault ∈ circuit) (hfault' : .noise fault' ∈ circuit) {id : ℕ}
    (hid : fault.correlationId = some id) (hid' : fault'.correlationId = some id) :
    ∃ size, fault.distribution.len = some size ∧ fault'.distribution.len = some size := by
  obtain ⟨sizes, -, hsizes⟩ := exists_len_of_validateFrom h
  obtain ⟨size, hlen, hsize⟩ := hsizes fault hfault id hid
  obtain ⟨size', hlen', hsize'⟩ := hsizes fault' hfault' id hid'
  obtain rfl := Option.some_inj.mp (hsize.symm.trans hsize')
  exact ⟨size, hlen, hlen'⟩

variable [Zero K] [LinearOrder K] {baseSeed : ℕ} {seeded : ℕ → ℕ → ℕ}

theorem getElem?_simulateCircuit {circuit : List (FaultyInstruction K)} {position : ℕ}
    {runs : List (List (ℕ × Option ℕ))}
    (h : simulateCircuit functions fuel shotCount baseSeed outcomes seeded words position circuit =
      some runs) {i : ℕ} {fault : PauliFault K} (hi : circuit[i]? = some (.noise fault)) {id : ℕ}
    (hid : fault.correlationId = some id) : ∃ drawn, (if fault.probability ≤ 0 then some ([], 0)
        else injectNoiseWithRng functions fuel shotCount fault outcomes
          (seeded ((baseSeed + id) % 2 ^ 64)) 0) = some drawn ∧ runs[i]? = some drawn.1 := by
  induction circuit generalizing position runs i with
  | nil => cases hi
  | cons instruction rest ih =>
    cases instruction with
    | op _ =>
      obtain ⟨others, hothers, h⟩ := Option.bind_eq_some_iff.mp h
      cases h
      cases i with
      | zero => cases hi
      | succ i => exact ih hothers hi
    | noise first =>
      obtain ⟨⟨drawn, next⟩, hdrawn, h⟩ := Option.bind_eq_some_iff.mp h
      obtain ⟨others, hothers, h⟩ := Option.bind_eq_some_iff.mp h
      cases h
      cases i with
      | zero =>
        cases hi
        rw [injectFault, hid] at hdrawn
        split_ifs at hdrawn ⊢ with hle
        · cases hdrawn
          exact ⟨_, rfl, rfl⟩
        · obtain ⟨drawn, hnoise, hdrawn⟩ := Option.bind_eq_some_iff.mp hdrawn
          cases hdrawn
          exact ⟨_, hnoise, rfl⟩
      | succ i => exact ih hothers hi

/-- Faults of a valid circuit with one correlation and one probability whose distributions choose
elements in the same way are coupled in every run, whatever other faults and their own conditions
and sampling paths are. -/
theorem simulateCircuit_coupled {circuit : List (FaultyInstruction K)}
    (hvalid : validateCorrelatedFaults circuit = some (.ok ())) {position : ℕ}
    {runs : List (List (ℕ × Option ℕ))}
    (h : simulateCircuit functions fuel shotCount baseSeed outcomes seeded words position circuit =
      some runs) {i j id : ℕ} {fault fault' : PauliFault K}
    (hi : circuit[i]? = some (.noise fault)) (hj : circuit[j]? = some (.noise fault'))
    (hid : fault.correlationId = some id) (hid' : fault'.correlationId = some id)
    (hprobability : fault.probability = fault'.probability)
    (hkind : fault.distribution.SameKind fault'.distribution) :
    ∃ shots shots', runs[i]? = some shots ∧ runs[j]? = some shots' ∧ Coupled shots shots' := by
  obtain ⟨drawn, hdrawn, hshots⟩ := getElem?_simulateCircuit h hi hid
  obtain ⟨drawn', hdrawn', hshots'⟩ := getElem?_simulateCircuit h hj hid'
  refine ⟨drawn.1, drawn'.1, hshots, hshots', ?_⟩
  rw [hprobability] at hdrawn
  split_ifs at hdrawn hdrawn' with hle
  · cases hdrawn
    cases hdrawn'
    exact .nil
  · obtain ⟨size, hlen, hlen'⟩ := exists_len_of_validateCorrelatedFaults hvalid
      (List.mem_of_getElem? hi) (List.mem_of_getElem? hj) hid hid'
    rw [injectNoiseWithRng_eq hlen, hprobability,
      funext fun position => hkind.sampleIndex_eq hlen hlen' position] at hdrawn
    rw [injectNoiseWithRng_eq hlen'] at hdrawn'
    exact injectLoop_coupled hdrawn hdrawn'

end Coupling

/-- Two faults with one correlation, of which only the second has a condition. -/
def sampleCorrelatedFaults : List (FaultyInstruction ℕ) :=
  [.noise ⟨1, .single ⟨⟨1⟩, ⟨0⟩, 0⟩, some 5, none, trivial⟩,
    .noise ⟨1, .single ⟨⟨2⟩, ⟨0⟩, 0⟩, some 5, some ⟨[0], true⟩, trivial⟩]

/-- A run of one shot whose outcome is false, with faults that always occur. -/
def simulateCorrelatedFaults : Option (List (List (ℕ × Option ℕ))) :=
  simulateCircuit ⟨fun _ _ => 0, fun _ _ position => (0, position + 1), fun _ _ => 0⟩ 1 1 0
    (fun _ => [false]) (fun _ _ => 0) (fun _ => 0) 0 sampleCorrelatedFaults

theorem simulateCircuit_coupled_sampleCorrelatedFaults :
    ∃ shots shots', [[(0, some 0)], [(0, none)]][0]? = some shots ∧
      [[(0, some 0)], [(0, none)]][1]? = some shots' ∧ Coupled shots shots' :=
  simulateCircuit_coupled (rfl : validateCorrelatedFaults sampleCorrelatedFaults = _)
    (show simulateCorrelatedFaults = _ by rfl) (i := 0) (j := 1) rfl rfl rfl rfl rfl trivial

/-- Correlated faults need not occur together: a condition suppresses one of them. -/
theorem simulateCorrelatedFaults_eq :
    validateCorrelatedFaults sampleCorrelatedFaults = some (.ok ()) ∧
      simulateCorrelatedFaults = some [[(0, some 0)], [(0, none)]] :=
  ⟨rfl, rfl⟩

end QdkEc
