import QdkEc.Pauliverse.FramePropagator

/-!
# Frames follow conjugation

This module proves that every gate rule of the frame propagator conjugates the
Pauli of each shot as the tableau operation of the same instruction conjugates
images, up to phase.  The rule of a permutation moves rows along the
permutation, the tableau operation moves them against it.
-/

namespace QdkEc

open PhasedPauli GeneratorFrame List CliffordUnitary AlignedBitMatrix Bits CliffordOp Option

namespace FramePropagator

/-- A shot carries a Pauli up to phase. -/
structure Carries (F : FramePropagator) (s : ℕ) (p : PhasedPauli) : Prop where
  xBits : ∀ j, (F.xFrames.row j).index s = p.xBits.index j
  zBits : ∀ j, (F.zFrames.row j).index s = p.zBits.index j

/-- The frames have rows for `n` qubits. -/
structure Sized (n : ℕ) (F : FramePropagator) : Prop where
  xFrames : F.xFrames.rowCount = n
  zFrames : F.zFrames.rowCount = n

variable {n s : ℕ} {F : FramePropagator} {p q : PhasedPauli}

theorem Carries.of_bits (h : F.Carries s p) (hx : q.xBits = p.xBits) (hz : q.zBits = p.zBits) :
    F.Carries s q :=
  ⟨fun j => by rw [h.xBits, hx], fun j => by rw [h.zBits, hz]⟩

theorem Carries.unique (hp : F.Carries s p) (hq : F.Carries s q) :
    p.xBits = q.xBits ∧ p.zBits = q.zBits := by
  refine ⟨ext_index fun j => ?_, ext_index fun j => ?_⟩
  · rw [← hp.xBits, hq.xBits]
  · rw [← hp.zBits, hq.zBits]

theorem Sized.assignRows (h : F.Sized n) (qubit : ℕ) (xRow zRow : Bits) :
    (F.assignRows qubit xRow zRow).Sized n :=
  ⟨h.1, h.2⟩

theorem Sized.xorX (h : F.Sized n) (qubit : ℕ) (mask : Bits) : (F.xorX qubit mask).Sized n :=
  ⟨h.1, h.2⟩

theorem Sized.xorZ (h : F.Sized n) (qubit : ℕ) (mask : Bits) : (F.xorZ qubit mask).Sized n :=
  ⟨h.1, h.2⟩

variable {qubit : ℕ} {qubits : List ℕ}

theorem row_assignRows (h : F.Sized n) (hq : qubit < n) (xRow zRow : Bits) (j : ℕ) :
    (F.assignRows qubit xRow zRow).xFrames.row j = (if j = qubit then xRow else F.xFrames.row j) ∧
      (F.assignRows qubit xRow zRow).zFrames.row j =
        (if j = qubit then zRow else F.zFrames.row j) :=
  ⟨row_setRow (by rw [h.1]; exact hq) xRow j, row_setRow (by rw [h.2]; exact hq) zRow j⟩

theorem row_xorX (h : F.Sized n) (hq : qubit < n) (mask : Bits) (j : ℕ) :
    (F.xorX qubit mask).xFrames.row j =
        (if j = qubit then F.xFrames.row qubit + mask else F.xFrames.row j) ∧
      (F.xorX qubit mask).zFrames.row j = F.zFrames.row j :=
  ⟨row_setRow (by rw [h.1]; exact hq) _ j, rfl⟩

theorem row_xorZ (h : F.Sized n) (hq : qubit < n) (mask : Bits) (j : ℕ) :
    (F.xorZ qubit mask).xFrames.row j = F.xFrames.row j ∧ (F.xorZ qubit mask).zFrames.row j =
        (if j = qubit then F.zFrames.row qubit + mask else F.zFrames.row j) :=
  ⟨rfl, row_setRow (by rw [h.2]; exact hq) _ j⟩

theorem carries_xorX (hF : F.Sized n) (hq : qubit < n) (mask : Bits)
    (h : F.Carries s p) :
    (F.xorX qubit mask).Carries s (if mask.index s then X qubit * p else p) := by
  refine ⟨fun j => ?_, fun j => ?_⟩
  · rw [(row_xorX hF hq mask j).1]
    by_cases hj : j = qubit
    · subst hj
      cases hm : mask.index s <;> simp [hm, h.xBits]
    · cases hm : mask.index s <;> simp [hj, Ne.symm hj, h.xBits]
  · rw [(row_xorX hF hq mask j).2, h.zBits]
    cases mask.index s <;> simp

theorem carries_xorZ (hF : F.Sized n) (hq : qubit < n) (mask : Bits)
    (h : F.Carries s p) :
    (F.xorZ qubit mask).Carries s (if mask.index s then Z qubit * p else p) := by
  refine ⟨fun j => ?_, fun j => ?_⟩
  · rw [(row_xorZ hF hq mask j).1, h.xBits]
    cases mask.index s <;> simp
  · rw [(row_xorZ hF hq mask j).2]
    by_cases hj : j = qubit
    · subst hj
      cases hm : mask.index s <;> simp [hm, h.zBits]
    · cases hm : mask.index s <;> simp [hj, Ne.symm hj, h.zBits]

theorem carries_foldl_xorX (mask : Bits) (hlt : ∀ qubit ∈ qubits, qubit < n)
    (hF : F.Sized n) (h : F.Carries s p) :
    (qubits.foldl (fun F qubit => F.xorX qubit mask) F).Sized n ∧
      (qubits.foldl (fun F qubit => F.xorX qubit mask) F).Carries s
        (if mask.index s then ⟨p.phase, p.xBits + ofList qubits, p.zBits⟩ else p) := by
  induction qubits generalizing F p with
  | nil =>
    refine ⟨hF, h.of_bits ?_ ?_⟩
    · cases mask.index s <;> simp
    · cases mask.index s <;> simp
  | cons qubit qubits ih =>
    have hstep := carries_xorX hF (hlt qubit (by simp)) mask h
    obtain ⟨hsized, hcarries⟩ := ih (fun q hq => hlt q (by simp [hq]))
      (hF.xorX qubit mask) hstep
    refine ⟨hsized, hcarries.of_bits ?_ ?_⟩
    · cases mask.index s <;> simp [add_comm, add_left_comm]
    · cases mask.index s <;> simp

theorem carries_foldl_xorZ (mask : Bits) (hlt : ∀ qubit ∈ qubits, qubit < n)
    (hF : F.Sized n) (h : F.Carries s p) :
    (qubits.foldl (fun F qubit => F.xorZ qubit mask) F).Sized n ∧
      (qubits.foldl (fun F qubit => F.xorZ qubit mask) F).Carries s
        (if mask.index s then ⟨p.phase, p.xBits, p.zBits + ofList qubits⟩ else p) := by
  induction qubits generalizing F p with
  | nil =>
    refine ⟨hF, h.of_bits ?_ ?_⟩
    · cases mask.index s <;> simp
    · cases mask.index s <;> simp
  | cons qubit qubits ih =>
    have hstep := carries_xorZ hF (hlt qubit (by simp)) mask h
    obtain ⟨hsized, hcarries⟩ := ih (fun q hq => hlt q (by simp [hq]))
      (hF.xorZ qubit mask) hstep
    refine ⟨hsized, hcarries.of_bits ?_ ?_⟩
    · cases mask.index s <;> simp
    · cases mask.index s <;> simp [add_comm, add_left_comm]

variable {pauli : PauliUnitary}

theorem carries_xorPauli (hpauli : pauli.Below n) (mask : Bits)
    (hF : F.Sized n) (h : F.Carries s p) : (F.xorPauli pauli mask).Sized n ∧
      (F.xorPauli pauli mask).Carries s (if mask.index s then pauli.toPhased * p else p) := by
  have hx : ∀ qubit ∈ pauli.xBits.support, qubit < n := fun qubit hq =>
    hpauli.1.lt_of_index (mem_support.mp hq)
  have hz : ∀ qubit ∈ pauli.zBits.support, qubit < n := fun qubit hq =>
    hpauli.2.lt_of_index (mem_support.mp hq)
  obtain ⟨hF', h'⟩ := carries_foldl_xorX mask hx hF h
  obtain ⟨hF'', h''⟩ := carries_foldl_xorZ mask hz hF' h'
  refine ⟨hF'', h''.of_bits ?_ ?_⟩
  · cases mask.index s <;> simp [ofList_support, add_comm]
  · cases mask.index s <;> simp [ofList_support, add_comm]

theorem index_anticommutationMask (pauli : PauliUnitary) (h : F.Carries s p) :
    (F.anticommutationMask pauli).index s = anti pauli.toPhased p := by
  have hloop : ∀ (g : ℕ → Bits) (b row mask : Bits), (∀ j, (g j).index s = row.index j) →
      (b.support.foldl (fun mask qubit => mask + g qubit) mask).index s =
        (mask.index s ^^ Bits.dot b row) := by
    intro g b row mask hrow
    have hfold : ∀ l : List ℕ, l.foldl (fun mask qubit => mask + g qubit) mask =
        mask + (l.map g).sum := by
      intro l
      induction l generalizing mask with
      | nil => simp
      | cons qubit l ih => simp [ih, add_assoc]
    rw [hfold, index_add, index_sum_support row hrow]
  unfold anticommutationMask
  rw [hloop _ _ p.zBits _ h.zBits, hloop _ _ p.xBits _ h.xBits, anti]
  simp [Bool.xor_comm]

section GateRules

variable {φ : PhasedPauli → PhasedPauli}

theorem carries_of_generators {F' : FramePropagator} (ℓx ℓz : ℕ → PhasedPauli → Bool)
    (hmul : ∀ p q, φ (p * q) = φ p * φ q) (hphase : ∀ k, φ (iPow k) = iPow k)
    (hx : ∀ j, Additive (ℓx j)) (hz : ∀ j, Additive (ℓz j))
    (hgx : ∀ i j, (φ (X i)).xBits.index j = ℓx j (X i) ∧ (φ (X i)).zBits.index j = ℓz j (X i))
    (hgz : ∀ i j, (φ (Z i)).xBits.index j = ℓx j (Z i) ∧ (φ (Z i)).zBits.index j = ℓz j (Z i))
    (hF' : ∀ j, (F'.xFrames.row j).index s = ℓx j p ∧ (F'.zFrames.row j).index s = ℓz j p) :
    F'.Carries s (φ p) := by
  refine ⟨fun j => ?_, fun j => ?_⟩
  · rw [(hF' j).1]
    exact ((hx j).eq_of_generators ((additive_index_xBits j).comp hmul hphase)
      (fun i => (hgx i j).1.symm) (fun i => (hgz i j).1.symm) p)
  · rw [(hF' j).2]
    exact ((hz j).eq_of_generators ((additive_index_zBits j).comp hmul hphase)
      (fun i => (hgx i j).2.symm) (fun i => (hgz i j).2.symm) p)

theorem index_ite {c : Prop} [Decidable c] (a b : Bits) (j : ℕ) :
    (if c then a else b).index j = if c then a.index j else b.index j := by
  split_ifs <;> rfl

section OneQubit

variable {qubit : ℕ} {a b : PhasedPauli}
variable (hmul : ∀ p q, (GeneratorFrame.onQubit qubit a b).lift (p * q) =
  (GeneratorFrame.onQubit qubit a b).lift p * (GeneratorFrame.onQubit qubit a b).lift q)

include hmul

theorem carries_applyH (ha : a.xBits = 0 ∧ a.zBits = unit qubit)
    (hb : b.xBits = unit qubit ∧ b.zBits = 0) (hF : F.Sized n) (hq : qubit < n)
    (h : F.Carries s p) : (F.applyH qubit).Carries s ((onQubit qubit a b).lift p) := by
  refine carries_of_generators
    (fun j p => if j = qubit then p.zBits.index qubit else p.xBits.index j)
    (fun j p => if j = qubit then p.xBits.index qubit else p.zBits.index j)
    hmul (lift_iPow _) ?_ ?_ ?_ ?_ ?_
  · exact fun j => (additive_index_zBits qubit).ite (additive_index_xBits j)
  · exact fun j => (additive_index_xBits qubit).ite (additive_index_zBits j)
  · intro i j
    rcases eq_or_ne i qubit with rfl | hi <;> rcases eq_or_ne j i with rfl | hj <;>
      simp_all [onQubit, Ne.symm]
  · intro i j
    rcases eq_or_ne i qubit with rfl | hi <;> rcases eq_or_ne j i with rfl | hj <;>
      simp_all [onQubit, Ne.symm]
  · intro j
    have hrows := row_assignRows hF hq (F.zFrames.row qubit) (F.xFrames.row qubit) j
    rw [applyH, hrows.1, hrows.2, index_ite, index_ite, h.xBits, h.xBits, h.zBits, h.zBits]
    exact ⟨rfl, rfl⟩

theorem carries_applyS (ha : a.xBits = unit qubit ∧ a.zBits = unit qubit)
    (hb : b.xBits = 0 ∧ b.zBits = unit qubit) (hF : F.Sized n) (hq : qubit < n)
    (h : F.Carries s p) : (F.applyS qubit).Carries s ((onQubit qubit a b).lift p) := by
  refine carries_of_generators (fun j p => p.xBits.index j)
    (fun j p => if j = qubit then p.zBits.index qubit ^^ p.xBits.index qubit else p.zBits.index j)
    hmul (lift_iPow _) additive_index_xBits ?_ ?_ ?_ ?_
  · exact fun j => ((additive_index_zBits qubit).xor (additive_index_xBits qubit)).ite
      (additive_index_zBits j)
  · intro i j
    rcases eq_or_ne i qubit with rfl | hi <;> rcases eq_or_ne j i with rfl | hj <;>
      simp_all [onQubit, Ne.symm]
  · intro i j
    rcases eq_or_ne i qubit with rfl | hi <;> rcases eq_or_ne j i with rfl | hj <;>
      simp_all [onQubit, Ne.symm]
  · intro j
    have hrows := row_xorZ hF hq (F.xFrames.row qubit) j
    rw [applyS, hrows.1, hrows.2, index_ite, index_add, h.xBits, h.xBits, h.zBits, h.zBits]
    exact ⟨rfl, rfl⟩

theorem carries_applySqrtX (ha : a.xBits = unit qubit ∧ a.zBits = 0)
    (hb : b.xBits = unit qubit ∧ b.zBits = unit qubit) (hF : F.Sized n) (hq : qubit < n)
    (h : F.Carries s p) : (F.applySqrtX qubit).Carries s ((onQubit qubit a b).lift p) := by
  refine carries_of_generators
    (fun j p => if j = qubit then p.xBits.index qubit ^^ p.zBits.index qubit else p.xBits.index j)
    (fun j p => p.zBits.index j)
    hmul (lift_iPow _) ?_ additive_index_zBits ?_ ?_ ?_
  · exact fun j => ((additive_index_xBits qubit).xor (additive_index_zBits qubit)).ite
      (additive_index_xBits j)
  · intro i j
    rcases eq_or_ne i qubit with rfl | hi <;> rcases eq_or_ne j i with rfl | hj <;>
      simp_all [onQubit, Ne.symm]
  · intro i j
    rcases eq_or_ne i qubit with rfl | hi <;> rcases eq_or_ne j i with rfl | hj <;>
      simp_all [onQubit, Ne.symm]
  · intro j
    have hrows := row_xorX hF hq (F.zFrames.row qubit) j
    rw [applySqrtX, hrows.1, hrows.2, index_ite, index_add, h.xBits, h.xBits, h.zBits, h.zBits]
    exact ⟨rfl, rfl⟩

end OneQubit

theorem carries_onQubit_pauli {qubit : ℕ} {a b : PhasedPauli}
    (hmul : ∀ p q, (onQubit qubit a b).lift (p * q) =
      (onQubit qubit a b).lift p * (onQubit qubit a b).lift q)
    (ha : a.xBits = unit qubit ∧ a.zBits = 0) (hb : b.xBits = 0 ∧ b.zBits = unit qubit)
    (h : F.Carries s p) : F.Carries s ((onQubit qubit a b).lift p) := by
  refine carries_of_generators (fun j p => p.xBits.index j) (fun j p => p.zBits.index j)
    hmul (lift_iPow _) additive_index_xBits additive_index_zBits ?_ ?_ ?_
  · intro i j
    rcases eq_or_ne i qubit with rfl | hi <;> simp_all [onQubit]
  · intro i j
    rcases eq_or_ne i qubit with rfl | hi <;> simp_all [onQubit]
  · exact fun j => ⟨h.xBits j, h.zBits j⟩

section TwoQubits

variable {q r : ℕ}

theorem carries_applyCnot (hmul : ∀ p p', (UnitaryOp.ControlledX.images [q, r]).lift (p * p') =
      (UnitaryOp.ControlledX.images [q, r]).lift p * (UnitaryOp.ControlledX.images [q, r]).lift p')
    (hF : F.Sized n) (hqr : q ≠ r) (hq : q < n) (hr : r < n) (h : F.Carries s p) :
    (F.applyCnot q r).Carries s ((UnitaryOp.ControlledX.images [q, r]).lift p) := by
  refine carries_of_generators
    (fun j p => if j = r then p.xBits.index r ^^ p.xBits.index q else p.xBits.index j)
    (fun j p => if j = q then p.zBits.index q ^^ p.zBits.index r else p.zBits.index j)
    hmul (lift_iPow _) ?_ ?_ ?_ ?_ ?_
  · exact fun j => ((additive_index_xBits r).xor (additive_index_xBits q)).ite
      (additive_index_xBits j)
  · exact fun j => ((additive_index_zBits q).xor (additive_index_zBits r)).ite
      (additive_index_zBits j)
  · intro i j
    rw [lift_X, UnitaryOp.images]
    rcases eq_or_ne i q with hi | hi <;> rcases eq_or_ne i r with hi' | hi' <;>
      rcases eq_or_ne j r with hj | hj <;> simp_all [onQubits, Ne.symm]
  · intro i j
    rw [lift_Z, UnitaryOp.images]
    rcases eq_or_ne i q with hi | hi <;> rcases eq_or_ne i r with hi' | hi' <;>
      rcases eq_or_ne j q with hj | hj <;> simp_all [onQubits, Ne.symm]
  · intro j
    have hx := row_xorX hF hr (F.xFrames.row q)
    have hz := row_xorZ (hF.xorX r (F.xFrames.row q)) hq
      ((F.xorX r (F.xFrames.row q)).zFrames.row r) j
    rw [applyCnot, hz.1, hz.2, (hx j).1, (hx j).2, (hx q).2, (hx r).2, index_ite, index_ite,
      index_add, index_add, h.xBits, h.xBits, h.xBits, h.zBits, h.zBits, h.zBits]
    exact ⟨rfl, rfl⟩

theorem carries_applyCz (hmul : ∀ p p', (UnitaryOp.ControlledZ.images [q, r]).lift (p * p') =
      (UnitaryOp.ControlledZ.images [q, r]).lift p * (UnitaryOp.ControlledZ.images [q, r]).lift p')
    (hF : F.Sized n) (hqr : q ≠ r) (hq : q < n) (hr : r < n) (h : F.Carries s p) :
    (F.applyCz q r).Carries s ((UnitaryOp.ControlledZ.images [q, r]).lift p) := by
  refine carries_of_generators (fun j p => p.xBits.index j)
    (fun j p => if j = q then p.zBits.index q ^^ p.xBits.index r
      else if j = r then p.zBits.index r ^^ p.xBits.index q else p.zBits.index j)
    hmul (lift_iPow _) additive_index_xBits ?_ ?_ ?_ ?_
  · exact fun j => ((additive_index_zBits q).xor (additive_index_xBits r)).ite
      (((additive_index_zBits r).xor (additive_index_xBits q)).ite (additive_index_zBits j))
  · intro i j
    rw [lift_X, UnitaryOp.images]
    rcases eq_or_ne i q with hi | hi <;> rcases eq_or_ne i r with hi' | hi' <;>
      rcases eq_or_ne j q with hj | hj <;> rcases eq_or_ne j r with hj' | hj' <;>
        simp_all [onQubits, Ne.symm]
  · intro i j
    rw [lift_Z, UnitaryOp.images]
    rcases eq_or_ne i q with hi | hi <;> rcases eq_or_ne i r with hi' | hi' <;>
      rcases eq_or_ne j q with hj | hj <;> rcases eq_or_ne j r with hj' | hj' <;>
        simp_all [onQubits, Ne.symm]
  · intro j
    have hfirst := row_xorZ hF hr (F.xFrames.row q)
    have hz := row_xorZ (hF.xorZ r (F.xFrames.row q)) hq
      ((F.xorZ r (F.xFrames.row q)).xFrames.row r) j
    rw [applyCz, hz.1, hz.2, (hfirst j).1, (hfirst j).2, (hfirst q).2, (hfirst r).1, if_neg hqr,
      index_ite, index_ite, index_add, index_add, h.xBits, h.xBits, h.xBits, h.zBits,
      h.zBits, h.zBits]
    exact ⟨rfl, rfl⟩

theorem carries_applySwap (hmul : ∀ p p', (UnitaryOp.Swap.images [q, r]).lift (p * p') =
      (UnitaryOp.Swap.images [q, r]).lift p * (UnitaryOp.Swap.images [q, r]).lift p')
    (hF : F.Sized n) (hq : q < n) (hr : r < n) (h : F.Carries s p) :
    (F.applySwap q r).Carries s ((UnitaryOp.Swap.images [q, r]).lift p) := by
  refine carries_of_generators (fun j p => p.xBits.index (Equiv.swap q r j))
    (fun j p => p.zBits.index (Equiv.swap q r j)) hmul (lift_iPow _)
    (fun j => additive_index_xBits _) (fun j => additive_index_zBits _) ?_ ?_ ?_
  · intro i j
    rw [lift_X, UnitaryOp.images, Equiv.swap_apply_def]
    rcases eq_or_ne i q with hi | hi <;> rcases eq_or_ne i r with hi' | hi' <;>
      rcases eq_or_ne j q with hj | hj <;> rcases eq_or_ne j r with hj' | hj' <;>
        simp_all [onQubits, Ne.symm]
  · intro i j
    rw [lift_Z, UnitaryOp.images, Equiv.swap_apply_def]
    rcases eq_or_ne i q with hi | hi <;> rcases eq_or_ne i r with hi' | hi' <;>
      rcases eq_or_ne j q with hj | hj <;> rcases eq_or_ne j r with hj' | hj' <;>
        simp_all [onQubits, Ne.symm]
  · intro j
    have hx := row_swapRows (m := F.xFrames) (a := q) (b := r)
      (by rw [hF.1]; exact hq) (by rw [hF.1]; exact hr) j
    have hz := row_swapRows (m := F.zFrames) (a := q) (b := r)
      (by rw [hF.2]; exact hq) (by rw [hF.2]; exact hr) j
    exact ⟨by rw [applySwap, hx, h.xBits], by rw [applySwap, hz, h.zBits]⟩

end TwoQubits

theorem images_PrepareBell {q r : ℕ} (hqr : q ≠ r) (hq : q < n) (hr : r < n) (p : PhasedPauli) :
    (UnitaryOp.PrepareBell.images [q, r]).lift p =
      (UnitaryOp.ControlledX.images [q, r]).lift ((UnitaryOp.Hadamard.images [q]).lift p) := by
  have hone : (CliffordOp.leftMul .Hadamard [q]).WellFormed n := by
    refine Or.inr ⟨rfl, by simp, ?_⟩
    simpa using hq
  have htwo : ∀ op ∈ [UnitaryOp.ControlledX, .PrepareBell],
      (CliffordOp.leftMul op [q, r]).WellFormed n := by
    intro op hop
    refine Or.inr ⟨?_, by simpa using hqr, by simpa using ⟨hq, hr⟩⟩
    fin_cases hop <;> rfl
  refine eq_of_eq_on_generators
    (φ := conjugationHom (htwo .PrepareBell (by simp)))
    (ψ := (conjugationHom (htwo .ControlledX (by simp))).comp
      (conjugationHom hone)) ?_ ?_ ?_ ?_ p
  · exact conjugation_iPow (htwo .PrepareBell (by simp))
  · intro k
    exact (congrArg _ (lift_iPow _ k)).trans (lift_iPow _ k)
  · intro i
    change (UnitaryOp.PrepareBell.images [q, r]).lift (X i) =
      (UnitaryOp.ControlledX.images [q, r]).lift ((UnitaryOp.Hadamard.images [q]).lift (X i))
    rcases eq_or_ne i q with rfl | hi <;> rcases eq_or_ne i r with hir | hir <;>
      simp_all [UnitaryOp.images, onQubit, onQubits]
  · intro i
    change (UnitaryOp.PrepareBell.images [q, r]).lift (Z i) =
      (UnitaryOp.ControlledX.images [q, r]).lift ((UnitaryOp.Hadamard.images [q]).lift (Z i))
    rcases eq_or_ne i q with rfl | hi <;> rcases eq_or_ne i r with hir | hir <;>
      simp_all [UnitaryOp.images, onQubit, onQubits]

theorem carries_applyUnitaryOp {op : UnitaryOp} {qubits : List ℕ} (hop : op.WellFormed n qubits)
    (hF : F.Sized n) (h : F.Carries s p) :
    (F.applyUnitaryOp op qubits).Carries s ((op.images qubits).lift p) := by
  have hmul : ∀ p q, (op.images qubits).lift (p * q) =
      (op.images qubits).lift p * (op.images qubits).lift q :=
    conjugation_mul (show (CliffordOp.leftMul op qubits).WellFormed _ from hop)
  rcases hop with rfl | ⟨hlen, hnodup, hlt⟩
  · simpa [UnitaryOp.images, applyUnitaryOp, lift_identity] using h
  · by_cases htwo : op ∈ [.Swap, .ControlledX, .ControlledZ, .PrepareBell]
    · rw [if_pos htwo] at hlen
      obtain ⟨q, r, rfl⟩ := length_eq_two.mp hlen
      have hq : q < n := hlt q (by simp)
      have hr : r < n := hlt r (by simp)
      have hqr : q ≠ r := by simpa using hnodup
      cases op with
      | Swap => exact carries_applySwap hmul hF hq hr h
      | ControlledX => exact carries_applyCnot hmul hF hqr hq hr h
      | ControlledZ => exact carries_applyCz hmul hF hqr hq hr h
      | PrepareBell =>
        have hH : (CliffordOp.leftMul .Hadamard [q]).WellFormed n :=
          Or.inr ⟨rfl, by simp, by simpa using hq⟩
        have hCnot : (CliffordOp.leftMul .ControlledX [q, r]).WellFormed n :=
          Or.inr ⟨rfl, hnodup, hlt⟩
        rw [images_PrepareBell hqr hq hr]
        exact carries_applyCnot (conjugation_mul hCnot)
          (hF.assignRows q _ _) hqr hq hr
          (carries_applyH (conjugation_mul hH) (by simp) (by simp) hF hq h)
      | _ => simp at htwo
    · rw [if_neg htwo] at hlen
      obtain ⟨q, rfl⟩ := length_eq_one_iff.mp hlen
      have hq : q < n := hlt q (by simp)
      cases op with
      | I => simpa [UnitaryOp.images, applyUnitaryOp, lift_identity] using h
      | X => exact carries_onQubit_pauli hmul (by simp) (by simp) h
      | Y => exact carries_onQubit_pauli hmul (by simp) (by simp) h
      | Z => exact carries_onQubit_pauli hmul (by simp) (by simp) h
      | SqrtX => exact carries_applySqrtX hmul (by simp) (by simp) hF hq h
      | SqrtXInv => exact carries_applySqrtX hmul (by simp) (by simp) hF hq h
      | SqrtY => exact carries_applyH hmul (by simp) (by simp) hF hq h
      | SqrtYInv => exact carries_applyH hmul (by simp) (by simp) hF hq h
      | SqrtZ => exact carries_applyS hmul (by simp) (by simp) hF hq h
      | SqrtZInv => exact carries_applyS hmul (by simp) (by simp) hF hq h
      | Hadamard => exact carries_applyH hmul (by simp) (by simp) hF hq h
      | _ => simp at htwo

theorem carries_applyPauliExp (hpauli : pauli.Below n) (hF : F.Sized n) (h : F.Carries s p) :
    (F.applyPauliExp pauli).Carries s (pauliExp pauli.toPhased p) := by
  have hmask := index_anticommutationMask pauli h
  have hcarries := (carries_xorPauli hpauli (F.anticommutationMask pauli) hF h).2
  rw [hmask] at hcarries
  cases hanti : anti pauli.toPhased p with
  | false =>
    rw [pauliExp_of_not_anti hanti]
    simpa [applyPauliExp, hanti] using hcarries
  | true =>
    rw [pauliExp_of_anti hanti]
    rw [hanti, if_pos rfl] at hcarries
    exact hcarries.of_bits (by simp) (by simp)

theorem carries_applyControlledPauli {control target : PauliUnitary} (hcontrol : control.Below n)
    (htarget : target.Below n) (hF : F.Sized n) (h : F.Carries s p) :
    (F.applyControlledPauli control target).Carries s
      (controlledPauli control.toPhased target.toPhased p) := by
  have hcmask := index_anticommutationMask control h
  have htmask := index_anticommutationMask target h
  obtain ⟨hF', h'⟩ := carries_xorPauli htarget (F.anticommutationMask control) hF h
  have h'' := (carries_xorPauli hcontrol (F.anticommutationMask target) hF' h').2
  rw [hcmask, htmask] at h''
  unfold controlledPauli
  cases hc : anti control.toPhased p with
  | false =>
    cases ht : anti target.toPhased p with
    | false => simpa [applyControlledPauli, hc, ht] using h''
    | true =>
      rw [hc, ht] at h''
      exact h''.of_bits (by simp [add_comm]) (by simp [add_comm])
  | true =>
    cases ht : anti target.toPhased p with
    | false =>
      rw [hc, ht] at h''
      exact h''.of_bits (by simp [add_comm]) (by simp [add_comm])
    | true =>
      rw [hc, ht] at h''
      exact h''.of_bits (by simp [add_comm, add_left_comm]) (by simp [add_comm, add_left_comm])

theorem row_foldl_assignRows {g : ℕ → ℕ} (xRow zRow : ℕ → Bits) {l : List ℕ} (hl : l.Nodup)
    (hinj : ∀ a ∈ l, ∀ b ∈ l, g a = g b → a = b) (hlt : ∀ k ∈ l, g k < n) (hF : F.Sized n) :
    (l.foldl (fun F k => F.assignRows (g k) (xRow k) (zRow k)) F).Sized n ∧ (∀ k ∈ l,
        (l.foldl (fun F k => F.assignRows (g k) (xRow k) (zRow k)) F).xFrames.row (g k) = xRow k ∧
          (l.foldl (fun F k => F.assignRows (g k) (xRow k) (zRow k)) F).zFrames.row (g k) =
            zRow k) ∧ ∀ j, (∀ k ∈ l, g k ≠ j) →
          (l.foldl (fun F k => F.assignRows (g k) (xRow k) (zRow k)) F).xFrames.row j =
              F.xFrames.row j ∧
            (l.foldl (fun F k => F.assignRows (g k) (xRow k) (zRow k)) F).zFrames.row j =
              F.zFrames.row j := by
  induction l generalizing F with
  | nil => exact ⟨hF, by simp, fun j _ => ⟨rfl, rfl⟩⟩
  | cons k l ih =>
    obtain ⟨habsent, hnodup⟩ := nodup_cons.mp hl
    have hk : g k < n := hlt k (by simp)
    have hrows := row_assignRows hF hk (xRow k) (zRow k)
    obtain ⟨hsized, hin, hout⟩ := ih hnodup
      (fun a ha b hb => hinj a (by simp [ha]) b (by simp [hb]))
      (fun a ha => hlt a (by simp [ha])) (hF.assignRows (g k) (xRow k) (zRow k))
    refine ⟨hsized, ?_, ?_⟩
    · intro a ha
      rcases mem_cons.mp ha with rfl | ha
      · have hne : ∀ b ∈ l, g b ≠ g a := by
          intro b hb hba
          have heq := hinj b (by simp [hb]) a (by simp) hba
          exact habsent (heq ▸ hb)
        rw [foldl_cons, (hout _ hne).1, (hout _ hne).2, (hrows _).1, (hrows _).2, if_pos rfl,
          if_pos rfl]
        exact ⟨rfl, rfl⟩
      · exact hin a ha
    · intro j hj
      have hne : g k ≠ j := hj k (by simp)
      rw [foldl_cons, (hout j fun a ha => hj a (by simp [ha])).1,
        (hout j fun a ha => hj a (by simp [ha])).2, (hrows j).1, (hrows j).2, if_neg hne.symm,
        if_neg hne.symm]
      exact ⟨rfl, rfl⟩

section Clifford

variable {clifford : CliffordUnitary}

/-- The new X bit of one shot and qubit of a Clifford gate, from the old bits of the shot. -/
def cliffordXBit (clifford : CliffordUnitary) (localQ : ℕ) (x z : ℕ → Bool) : Bool :=
  Bits.xorSum clifford.numQubits fun localSrc =>
    ((clifford.xImageViewUpToPhase localSrc).1.index localQ && x localSrc) ^^
      ((clifford.zImageViewUpToPhase localSrc).1.index localQ && z localSrc)

/-- The new Z bit of one shot and qubit of a Clifford gate, from the old bits of the shot. -/
def cliffordZBit (clifford : CliffordUnitary) (localQ : ℕ) (x z : ℕ → Bool) : Bool :=
  Bits.xorSum clifford.numQubits fun localSrc =>
    ((clifford.xImageViewUpToPhase localSrc).2.index localQ && x localSrc) ^^
      ((clifford.zImageViewUpToPhase localSrc).2.index localQ && z localSrc)

theorem index_xorIf (condition : Bool) (row mask : Bits) :
    (xorIf condition row mask).index s = (row.index s ^^ (condition && mask.index s)) := by
  cases condition <;> simp [xorIf]

theorem index_cliffordRows (oldXRows oldZRows : List Bits)
    (hlen : oldXRows.length = clifford.numQubits) (localQ : ℕ) :
    (cliffordRows clifford oldXRows oldZRows localQ).1.index s =
        cliffordXBit clifford localQ (fun src => (oldXRows.getD src 0).index s)
          (fun src => (oldZRows.getD src 0).index s) ∧
      (cliffordRows clifford oldXRows oldZRows localQ).2.index s =
        cliffordZBit clifford localQ (fun src => (oldXRows.getD src 0).index s)
          (fun src => (oldZRows.getD src 0).index s) := by
  unfold cliffordRows cliffordXBit cliffordZBit
  rw [hlen]
  induction clifford.numQubits with
  | zero => simp
  | succ k ih =>
    rw [range_succ, foldl_append, foldl_cons, foldl_nil, xorSum_succ, xorSum_succ]
    simp only [index_xorIf, ih.1, ih.2, Bool.xor_assoc, and_self]

variable {x z : ℕ → Bool}

theorem cliffordBits_X {k : ℕ} (hk : k < clifford.numQubits)
    (hx : ∀ src, src < clifford.numQubits → x src = decide (src = k))
    (hz : ∀ src, src < clifford.numQubits → z src = false) (localQ : ℕ) :
    cliffordXBit clifford localQ x z = (clifford.xImageViewUpToPhase k).1.index localQ ∧
      cliffordZBit clifford localQ x z = (clifford.xImageViewUpToPhase k).2.index localQ := by
  unfold cliffordXBit cliffordZBit
  rw [xorSum_eq_of_single (k := k), xorSum_eq_of_single (k := k)]
  · simp [hk, hx k hk, hz k hk]
  · intro src hsrc hne
    simp [hx src hsrc, hz src hsrc, hne]
  · intro src hsrc hne
    simp [hx src hsrc, hz src hsrc, hne]

theorem cliffordBits_Z {k : ℕ} (hk : k < clifford.numQubits)
    (hx : ∀ src, src < clifford.numQubits → x src = false)
    (hz : ∀ src, src < clifford.numQubits → z src = decide (src = k)) (localQ : ℕ) :
    cliffordXBit clifford localQ x z = (clifford.zImageViewUpToPhase k).1.index localQ ∧
      cliffordZBit clifford localQ x z = (clifford.zImageViewUpToPhase k).2.index localQ := by
  unfold cliffordXBit cliffordZBit
  rw [xorSum_eq_of_single (k := k), xorSum_eq_of_single (k := k)]
  · simp [hk, hx k hk, hz k hk]
  · intro src hsrc hne
    simp [hx src hsrc, hz src hsrc, hne]
  · intro src hsrc hne
    simp [hx src hsrc, hz src hsrc, hne]

theorem cliffordBits_zero (hx : ∀ src, src < clifford.numQubits → x src = false)
    (hz : ∀ src, src < clifford.numQubits → z src = false) (localQ : ℕ) :
    cliffordXBit clifford localQ x z = false ∧ cliffordZBit clifford localQ x z = false := by
  unfold cliffordXBit cliffordZBit
  rw [xorSum_eq_of_single (k := clifford.numQubits), xorSum_eq_of_single (k := clifford.numQubits)]
  · simp
  · intro src hsrc _
    simp [hx src hsrc, hz src hsrc]
  · intro src hsrc _
    simp [hx src hsrc, hz src hsrc]

variable {qubits : List ℕ}

theorem decide_eq_getD (hnodup : qubits.Nodup) {i src : ℕ} (hi : i ∈ qubits)
    (hsrc : src < qubits.length) :
    decide (i = qubits.getD src 0) = decide (src = qubits.idxOf i) := by
  rw [getD_eq_getElem _ _ hsrc, decide_eq_decide]
  constructor
  · rintro rfl
    rw [List.Nodup.idxOf_getElem hnodup]
  · rintro rfl
    rw [getElem_idxOf]

theorem decide_eq_getD_of_not_mem {i src : ℕ} (hi : i ∉ qubits)
    (hsrc : src < qubits.length) : decide (i = qubits.getD src 0) = false := by
  rw [getD_eq_getElem _ _ hsrc, decide_eq_false_iff_not]
  rintro rfl
  exact hi (getElem_mem hsrc)

theorem bits_images (clifford : CliffordUnitary) (k : ℕ) :
    ((clifford.imageX k).xBits = (clifford.xImageViewUpToPhase k).1 ∧
        (clifford.imageX k).zBits = (clifford.xImageViewUpToPhase k).2) ∧
      (clifford.imageZ k).xBits = (clifford.zImageViewUpToPhase k).1 ∧
        (clifford.imageZ k).zBits = (clifford.zImageViewUpToPhase k).2 :=
  ⟨⟨zero_add _, zero_add _⟩, ⟨zero_add _, zero_add _⟩⟩

theorem index_onSupport (hnodup : qubits.Nodup)
    (hlen : clifford.numQubits = qubits.length) {i : ℕ} (hi : i ∈ qubits) (j : ℕ) :
    (((onSupport qubits clifford.imageFrame).x i).xBits.index j = (decide (j ∈ qubits) &&
          (clifford.xImageViewUpToPhase (qubits.idxOf i)).1.index (qubits.idxOf j)) ∧
      ((onSupport qubits clifford.imageFrame).x i).zBits.index j = (decide (j ∈ qubits) &&
          (clifford.xImageViewUpToPhase (qubits.idxOf i)).2.index (qubits.idxOf j))) ∧
    (((onSupport qubits clifford.imageFrame).z i).xBits.index j = (decide (j ∈ qubits) &&
          (clifford.zImageViewUpToPhase (qubits.idxOf i)).1.index (qubits.idxOf j)) ∧
      ((onSupport qubits clifford.imageFrame).z i).zBits.index j = (decide (j ∈ qubits) &&
          (clifford.zImageViewUpToPhase (qubits.idxOf i)).2.index (qubits.idxOf j))) := by
  have hk : qubits.idxOf i < clifford.numQubits := by
    rw [hlen]
    exact idxOf_lt_length_of_mem hi
  have hbelow : ∀ b : Bits, (b.low clifford.numQubits).Below qubits.length := by
    intro b
    rw [hlen]
    exact below_low _ b
  simp only [onSupport, if_pos hi, imageFrame, if_pos hk,
    PhasedPauli.remap, PauliUnitary.toPhased_xBits, PauliUnitary.toPhased_zBits,
    (bits_images clifford (qubits.idxOf i)).1.1, (bits_images clifford (qubits.idxOf i)).1.2,
    (bits_images clifford (qubits.idxOf i)).2.1, (bits_images clifford (qubits.idxOf i)).2.2]
  refine ⟨⟨?_, ?_⟩, ⟨?_, ?_⟩⟩
  · exact index_remap_getD hnodup (hbelow _) j
  · exact index_remap_getD hnodup (hbelow _) j
  · exact index_remap_getD hnodup (hbelow _) j
  · exact index_remap_getD hnodup (hbelow _) j

/-- The new X bit of a qubit of a shot that carries `p`. -/
def newXBit (clifford : CliffordUnitary) (qubits : List ℕ) (j : ℕ) (p : PhasedPauli) : Bool :=
  if j ∈ qubits then
    cliffordXBit clifford (qubits.idxOf j) (fun src => p.xBits.index (qubits.getD src 0))
      (fun src => p.zBits.index (qubits.getD src 0))
  else p.xBits.index j

/-- The new Z bit of a qubit of a shot that carries `p`. -/
def newZBit (clifford : CliffordUnitary) (qubits : List ℕ) (j : ℕ) (p : PhasedPauli) : Bool :=
  if j ∈ qubits then
    cliffordZBit clifford (qubits.idxOf j) (fun src => p.xBits.index (qubits.getD src 0))
      (fun src => p.zBits.index (qubits.getD src 0))
  else p.zBits.index j

theorem additive_newBits (clifford : CliffordUnitary) (qubits : List ℕ) (j : ℕ) :
    Additive (newXBit clifford qubits j) ∧ Additive (newZBit clifford qubits j) := by
  refine ⟨Additive.ite (Additive.xorSum fun src => ?_) (additive_index_xBits j),
    Additive.ite (Additive.xorSum fun src => ?_) (additive_index_zBits j)⟩
  · exact ((additive_index_xBits _).and _).xor ((additive_index_zBits _).and _)
  · exact ((additive_index_xBits _).and _).xor ((additive_index_zBits _).and _)

section NewBits

variable {qubits : List ℕ} (hnodup : qubits.Nodup) (hlen : clifford.numQubits = qubits.length)

include hnodup hlen

theorem newBits_X (i j : ℕ) : ((onSupport qubits clifford.imageFrame).x i).xBits.index j =
        newXBit clifford qubits j (X i) ∧
      ((onSupport qubits clifford.imageFrame).x i).zBits.index j =
        newZBit clifford qubits j (X i) := by
  have hz : ∀ src, src < clifford.numQubits →
      (X i).zBits.index (qubits.getD src 0) = false := by
    simp
  by_cases hi : i ∈ qubits
  · have hk : qubits.idxOf i < clifford.numQubits := by
      rw [hlen]
      exact idxOf_lt_length_of_mem hi
    have hx : ∀ src, src < clifford.numQubits →
        (X i).xBits.index (qubits.getD src 0) = decide (src = qubits.idxOf i) := by
      intro src hsrc
      rw [X_xBits, index_unit, decide_eq_getD hnodup hi (by omega)]
    obtain ⟨hbitX, hbitZ⟩ := cliffordBits_X hk hx hz (qubits.idxOf j)
    rw [(index_onSupport hnodup hlen hi j).1.1, (index_onSupport hnodup hlen hi j).1.2, newXBit,
      newZBit, hbitX, hbitZ]
    by_cases hj : j ∈ qubits
    · simp [hj]
    · have hij : i ≠ j := by
        rintro rfl
        exact hj hi
      simp [hj, hij]
  · have hx : ∀ src, src < clifford.numQubits →
        (X i).xBits.index (qubits.getD src 0) = false := by
      intro src hsrc
      rw [X_xBits, index_unit, decide_eq_getD_of_not_mem hi (by omega)]
    obtain ⟨hbitX, hbitZ⟩ := cliffordBits_zero hx hz (qubits.idxOf j)
    rw [(onSupport_of_not_mem hi).1, newXBit, newZBit, hbitX, hbitZ]
    by_cases hj : j ∈ qubits
    · have hij : i ≠ j := by
        rintro rfl
        exact hi hj
      simp [hj, hij]
    · simp [hj]

theorem newBits_Z (i j : ℕ) : ((onSupport qubits clifford.imageFrame).z i).xBits.index j =
        newXBit clifford qubits j (Z i) ∧
      ((onSupport qubits clifford.imageFrame).z i).zBits.index j =
        newZBit clifford qubits j (Z i) := by
  have hx : ∀ src, src < clifford.numQubits →
      (Z i).xBits.index (qubits.getD src 0) = false := by
    simp
  by_cases hi : i ∈ qubits
  · have hk : qubits.idxOf i < clifford.numQubits := by
      rw [hlen]
      exact idxOf_lt_length_of_mem hi
    have hz : ∀ src, src < clifford.numQubits →
        (Z i).zBits.index (qubits.getD src 0) = decide (src = qubits.idxOf i) := by
      intro src hsrc
      rw [Z_zBits, index_unit, decide_eq_getD hnodup hi (by omega)]
    obtain ⟨hbitX, hbitZ⟩ := cliffordBits_Z hk hx hz (qubits.idxOf j)
    rw [(index_onSupport hnodup hlen hi j).2.1, (index_onSupport hnodup hlen hi j).2.2, newXBit,
      newZBit, hbitX, hbitZ]
    by_cases hj : j ∈ qubits
    · simp [hj]
    · have hij : i ≠ j := by
        rintro rfl
        exact hj hi
      simp [hj, hij]
  · have hz : ∀ src, src < clifford.numQubits →
        (Z i).zBits.index (qubits.getD src 0) = false := by
      intro src hsrc
      rw [Z_zBits, index_unit, decide_eq_getD_of_not_mem hi (by omega)]
    obtain ⟨hbitX, hbitZ⟩ := cliffordBits_zero hx hz (qubits.idxOf j)
    rw [(onSupport_of_not_mem hi).2, newXBit, newZBit, hbitX, hbitZ]
    by_cases hj : j ∈ qubits
    · have hij : i ≠ j := by
        rintro rfl
        exact hi hj
      simp [hj, hij]
    · simp [hj]

theorem row_applyClifford (hlt : ∀ qubit ∈ qubits, qubit < n) (hF : F.Sized n) (h : F.Carries s p) :
    (F.applyClifford clifford qubits).Sized n ∧
      ∀ j, ((F.applyClifford clifford qubits).xFrames.row j).index s = newXBit clifford qubits j p ∧
        ((F.applyClifford clifford qubits).zFrames.row j).index s =
          newZBit clifford qubits j p := by
  obtain ⟨hsized, hin, hout⟩ := row_foldl_assignRows (g := fun k => qubits.getD k 0)
    (fun k => (cliffordRows clifford (qubits.map F.xFrames.row) (qubits.map F.zFrames.row) k).1)
    (fun k => (cliffordRows clifford (qubits.map F.xFrames.row) (qubits.map F.zFrames.row) k).2)
    (nodup_range (n := qubits.length))
    (by
      intro a ha b hb hab
      have ha' := mem_range.mp ha
      have hb' := mem_range.mp hb
      simp only [getD_eq_getElem qubits _ ha', getD_eq_getElem qubits _ hb'] at hab
      exact (List.Nodup.getElem_inj_iff hnodup).mp hab)
    (by
      intro k hk
      have hk' := mem_range.mp hk
      simp only [getD_eq_getElem qubits _ hk']
      exact hlt _ (getElem_mem hk'))
    hF
  refine ⟨hsized, fun j => ?_⟩
  by_cases hj : j ∈ qubits
  · have hidx := idxOf_lt_length_of_mem hj
    have hold : ∀ src, src < clifford.numQubits →
        ((qubits.map F.xFrames.row).getD src 0).index s = p.xBits.index (qubits.getD src 0) ∧
          ((qubits.map F.zFrames.row).getD src 0).index s = p.zBits.index (qubits.getD src 0) := by
      intro src hsrc
      rw [hlen] at hsrc
      simp [hsrc, h.xBits, h.zBits]
    have hrow := hin (qubits.idxOf j) (mem_range.mpr hidx)
    simp only [getD_eq_getElem qubits _ hidx, getElem_idxOf] at hrow
    obtain ⟨hbitX, hbitZ⟩ := index_cliffordRows (s := s) (qubits.map F.xFrames.row)
      (qubits.map F.zFrames.row) (by simpa using hlen.symm) (qubits.idxOf j)
    rw [newXBit, newZBit, if_pos hj, if_pos hj]
    refine ⟨(congrArg (index · s) hrow.1).trans (hbitX.trans ?_),
      (congrArg (index · s) hrow.2).trans (hbitZ.trans ?_)⟩
    · refine xorSum_congr fun src hsrc => ?_
      simp only [(hold src hsrc).1, (hold src hsrc).2]
    · refine xorSum_congr fun src hsrc => ?_
      simp only [(hold src hsrc).1, (hold src hsrc).2]
  · have hrow := hout j fun k hk hkj => by
      have hk' := mem_range.mp hk
      simp only [getD_eq_getElem qubits _ hk'] at hkj
      exact hj (hkj ▸ getElem_mem hk')
    rw [newXBit, newZBit, if_neg hj, if_neg hj, ← h.xBits, ← h.zBits]
    exact ⟨congrArg (index · s) hrow.1, congrArg (index · s) hrow.2⟩

end NewBits

theorem carries_applyClifford
    (hop : (CliffordOp.leftMulClifford clifford qubits).WellFormed n) (hF : F.Sized n)
    (h : F.Carries s p) : (F.applyClifford clifford qubits).Sized n ∧
      (F.applyClifford clifford qubits).Carries s
        ((onSupport qubits clifford.imageFrame).lift p) := by
  have hmul := conjugation_mul hop
  obtain ⟨hvalid, hnodup, hlt⟩ := hop
  have hlen := hvalid.numQubits_eq
  obtain ⟨hsized, hrows⟩ := row_applyClifford hnodup hlen hlt hF h
  refine ⟨hsized, ?_⟩
  refine carries_of_generators (newXBit clifford qubits) (newZBit clifford qubits) hmul
    (lift_iPow _) (fun j => (additive_newBits clifford qubits j).1)
    (fun j => (additive_newBits clifford qubits j).2) ?_ ?_ hrows
  · intro i j
    rw [lift_X]
    exact newBits_X hnodup hlen i j
  · intro i j
    rw [lift_Z]
    exact newBits_Z hnodup hlen i j

end Clifford

theorem carries_applyPermutation {permutation qubits : List ℕ}
    (hop : (CliffordOp.leftMulPermutation permutation qubits).WellFormed n) (hF : F.Sized n)
    (h : F.Carries s p) : (F.applyPermutation permutation qubits).Sized n ∧
      (F.applyPermutation permutation qubits).Carries s
        (p.remap (permutationSource permutation qubits)) := by
  obtain ⟨hperm, hnodup, hlen, hlt⟩ := hop
  have hpermLt : ∀ k, k < permutation.length → permutation.getD k 0 < qubits.length := by
    intro k hk
    rw [getD_eq_getElem _ _ hk, ← hlen]
    exact mem_range.mp (hperm.mem_iff.mp (getElem_mem hk))
  have htarget : ∀ k, k < permutation.length →
      qubits.getD (permutation.getD k 0) 0 =
        permutationSource permutation qubits (qubits.getD k 0) := by
    intro k hk
    have hk' : k < qubits.length := by omega
    rw [getD_eq_getElem qubits _ hk', permutationSource,
      if_pos (getElem_mem hk'), List.Nodup.idxOf_getElem hnodup]
  have hinjective := permutationSource_injective hperm hnodup hlen
  obtain ⟨hsized, hin, hout⟩ := row_foldl_assignRows
    (g := fun k => qubits.getD (permutation.getD k 0) 0)
    (fun k => (qubits.map F.xFrames.row).getD k 0) (fun k => (qubits.map F.zFrames.row).getD k 0)
    (nodup_range (n := permutation.length))
    (by
      intro a ha b hb hab
      have ha' := mem_range.mp ha
      have hb' := mem_range.mp hb
      simp only [htarget a ha', htarget b hb'] at hab
      have hab' := hinjective hab
      rw [getD_eq_getElem _ _ (by omega), getD_eq_getElem _ _ (by omega)] at hab'
      exact (List.Nodup.getElem_inj_iff hnodup).mp hab')
    (by
      intro k hk
      have hlt' := hpermLt k (mem_range.mp hk)
      simp only [getD_eq_getElem qubits _ hlt']
      exact hlt _ (getElem_mem hlt'))
    hF
  have hrow : ∀ i, (F.applyPermutation permutation qubits).xFrames.row
        (permutationSource permutation qubits i) = F.xFrames.row i ∧
      (F.applyPermutation permutation qubits).zFrames.row
        (permutationSource permutation qubits i) = F.zFrames.row i := by
    intro i
    by_cases hi : i ∈ qubits
    · obtain ⟨k, hk, rfl⟩ := mem_iff_getElem.mp hi
      have hk' : k < permutation.length := by omega
      have hget := hin k (mem_range.mpr hk')
      simp only [htarget k hk', getD_eq_getElem qubits _ hk] at hget
      refine ⟨hget.1.trans ?_, hget.2.trans ?_⟩
      · rw [getD_eq_getElem _ _ (by simpa using hk), getElem_map]
      · rw [getD_eq_getElem _ _ (by simpa using hk), getElem_map]
    · have hstay : permutationSource permutation qubits i = i := by
        rw [permutationSource, if_neg hi]
      rw [hstay]
      refine hout i ?_
      intro k hk hki
      have hlt' := hpermLt k (mem_range.mp hk)
      simp only [getD_eq_getElem qubits _ hlt'] at hki
      exact hi (hki ▸ getElem_mem hlt')
  refine ⟨hsized, fun j => ?_, fun j => ?_⟩
  · obtain ⟨i, rfl⟩ := permutationSource_surjective hperm hnodup hlen j
    rw [(hrow i).1, h.xBits]
    exact (index_remap_apply fun j _ hj => hinjective hj).symm
  · obtain ⟨i, rfl⟩ := permutationSource_surjective hperm hnodup hlen j
    rw [(hrow i).2, h.zBits]
    exact (index_remap_apply fun j _ hj => hinjective hj).symm

end GateRules

/-- The conjugation of frames by a unitary instruction: that of its tableau operation, except that
a permutation moves the qubits along itself. -/
def frameConjugation : Instruction → PhasedPauli → PhasedPauli
  | .permute permutation qubits =>
    PhasedPauli.remap (CliffordUnitary.permutationSource permutation qubits)
  | instruction =>
    match instruction.cliffordOp with
    | some op => op.conjugation
    | none => id

theorem sized_applyUnitaryOp (op : UnitaryOp) (qubits : List ℕ) (hF : F.Sized n) :
    (F.applyUnitaryOp op qubits).Sized n := by
  obtain ⟨hx, hz⟩ := hF
  cases op with
  | Swap => exact ⟨(rowCount_swapRows _ _ _).trans hx, (rowCount_swapRows _ _ _).trans hz⟩
  | _ => exact ⟨hx, hz⟩

variable {instruction : Instruction}

theorem carries_execute (hinstruction : instruction.UnitaryOn n)
    (faults : List (ℕ × PauliUnitary)) (hF : F.Sized n) (h : F.Carries s p) :
    (F.execute instruction faults).Sized n ∧
      (F.execute instruction faults).Carries s (frameConjugation instruction p) := by
  obtain ⟨op, hcliffordOp, hop⟩ := hinstruction
  cases instruction with
  | unitary opcode qubits =>
    obtain rfl := some_inj.mp hcliffordOp
    exact ⟨sized_applyUnitaryOp opcode qubits hF, carries_applyUnitaryOp hop hF h⟩
  | clifford gate qubits =>
    obtain rfl := some_inj.mp hcliffordOp
    exact carries_applyClifford hop hF h
  | pauli pauli =>
    refine ⟨hF, h.of_bits ?_ ?_⟩
    · simp [frameConjugation, Instruction.cliffordOp, conjugation, conjugate_apply]
    · simp [frameConjugation, Instruction.cliffordOp, conjugation, conjugate_apply]
  | pauliExp pauli =>
    obtain rfl := some_inj.mp hcliffordOp
    exact ⟨(carries_xorPauli hop.1 _ hF h).1, carries_applyPauliExp hop.1 hF h⟩
  | permute permutation qubits =>
    obtain rfl := some_inj.mp hcliffordOp
    exact carries_applyPermutation hop hF h
  | controlledPauli control target =>
    obtain rfl := some_inj.mp hcliffordOp
    obtain ⟨⟨hc, _⟩, ⟨ht, _⟩, _⟩ := hop
    have hfirst := carries_xorPauli ht (F.anticommutationMask control) hF h
    exact ⟨(carries_xorPauli hc _ hfirst.1 hfirst.2).1, carries_applyControlledPauli hc ht hF h⟩
  | _ => cases hcliffordOp

/-- A permutation is its own inverse. -/
def IsInvolution (permutation : List ℕ) : Prop :=
  ∀ e, e < permutation.length → permutation.getD (permutation.getD e 0) 0 = e

instance (permutation : List ℕ) : Decidable (IsInvolution permutation) :=
  inferInstanceAs (Decidable (∀ e, e < permutation.length → _))

/-- An instruction whose permutation, if it has one, is its own inverse. -/
def PermutesByInvolution : Instruction → Prop
  | .permute permutation _ => IsInvolution permutation
  | _ => True

instance (instruction : Instruction) : Decidable (PermutesByInvolution instruction) :=
  match instruction with
  | .permute permutation _ => inferInstanceAs (Decidable (IsInvolution permutation))
  | .unitary _ _ | .clifford _ _ | .pauli _ | .pauliExp _ | .controlledPauli _ _ | .measure _ _
  | .allocateRandomBit _ | .conditionalPauli _ _ _ | .noise => isTrue trivial

theorem isInvolution_iff {permutation : List ℕ}
    (hop : (CliffordOp.leftMulPermutation permutation qubits).WellFormed n) :
    IsInvolution permutation ↔ ∀ j ∈ qubits, permutationSource permutation qubits j =
        permutationTarget permutation qubits j := by
  obtain ⟨hperm, hnodup, hlen, _⟩ := hop
  have hpermNodup : permutation.Nodup := hperm.nodup_iff.mpr nodup_range
  have hmem : ∀ e, e < permutation.length → e ∈ permutation := by
    intro e he
    exact hperm.mem_iff.mpr (mem_range.mpr he)
  have hlt : ∀ e, e < permutation.length → permutation.getD e 0 < permutation.length := by
    intro e he
    rw [getD_eq_getElem _ _ he]
    exact mem_range.mp (hperm.mem_iff.mp (getElem_mem he))
  have hplace : ∀ e (he : e < permutation.length),
      permutationSource permutation qubits (qubits.getD e 0) =
          permutationTarget permutation qubits (qubits.getD e 0) ↔
        permutation.getD e 0 = permutation.idxOf e := by
    intro e he
    have he' : e < qubits.length := by omega
    have hidx := idxOf_lt_length_of_mem (hmem e he)
    rw [getD_eq_getElem qubits _ he', permutationSource,
      permutationTarget, if_pos (getElem_mem he'), if_pos (getElem_mem he'),
      List.Nodup.idxOf_getElem hnodup,
      getD_eq_getElem qubits 0 (show permutation.getD e 0 < qubits.length by
        rw [← hlen]; exact hlt e he),
      getD_eq_getElem qubits 0 (show permutation.idxOf e < qubits.length by omega),
      List.Nodup.getElem_inj_iff hnodup]
  have hentry : ∀ e, e < permutation.length →
      (permutation.getD (permutation.getD e 0) 0 = e ↔
        permutation.getD e 0 = permutation.idxOf e) := by
    intro e he
    rw [getD_eq_getElem permutation 0 (hlt e he)]
    constructor
    · intro h
      conv_rhs => rw [← h]
      rw [List.Nodup.idxOf_getElem hpermNodup]
    · intro h
      simp only [h, getElem_idxOf]
  constructor
  · intro hinv j hj
    obtain ⟨e, he, rfl⟩ := mem_iff_getElem.mp hj
    have he' : e < permutation.length := by omega
    have h := (hplace e he').mpr ((hentry e he').mp (hinv e he'))
    rwa [getD_eq_getElem qubits _ he] at h
  · intro hagree e he
    refine (hentry e he).mpr ((hplace e he).mp (hagree _ ?_))
    rw [getD_eq_getElem qubits _ (by omega)]
    exact getElem_mem (by omega)

/-- Execute the unitary instructions of a circuit. -/
def run (circuit : List Instruction) (F : FramePropagator) : FramePropagator :=
  circuit.foldl (fun F instruction => F.execute instruction []) F

theorem frameConjugation_of_involution {op : CliffordOp}
    (hcliffordOp : instruction.cliffordOp = some op) (hop : op.WellFormed n)
    (hinv : PermutesByInvolution instruction) (p : PhasedPauli) :
    frameConjugation instruction p = op.conjugation p := by
  cases instruction with
  | permute permutation qubits =>
    obtain rfl := some_inj.mp hcliffordOp
    have hagree := (isInvolution_iff hop).mp hinv
    have hfun : permutationSource permutation qubits =
        permutationTarget permutation qubits := by
      funext j
      by_cases hj : j ∈ qubits
      · exact hagree j hj
      · rw [permutationSource, permutationTarget, if_neg hj, if_neg hj]
    have hinjective :=
      permutationSource_injective hop.1 hop.2.1 hop.2.2.1
    rw [hfun] at hinjective
    rw [frameConjugation, hfun, ← lift_relabel_identity hinjective]
    rfl
  | unitary opcode qubits =>
    obtain rfl := some_inj.mp hcliffordOp
    rfl
  | clifford gate qubits =>
    obtain rfl := some_inj.mp hcliffordOp
    rfl
  | pauli pauli =>
    obtain rfl := some_inj.mp hcliffordOp
    rfl
  | pauliExp pauli =>
    obtain rfl := some_inj.mp hcliffordOp
    rfl
  | controlledPauli control target =>
    obtain rfl := some_inj.mp hcliffordOp
    rfl
  | _ => cases hcliffordOp

section Circuits

variable {circuit : List Instruction}

theorem run_concat {op : CliffordOp} {C : CliffordUnitary}
    (hcliffordOp : instruction.cliffordOp = some op)
    (hrun : CliffordOp.run (circuit.filterMap Instruction.cliffordOp) (.identity n) = some C) :
    CliffordOp.run ((circuit ++ [instruction]).filterMap Instruction.cliffordOp) (.identity n) =
      op.apply C := by
  rw [CliffordOp.run] at hrun ⊢
  rw [filterMap_append, foldlM_append, hrun]
  simp [hcliffordOp]

variable (hcircuit : ∀ instruction ∈ circuit, instruction.UnitaryOn n)

include hcircuit

theorem exists_run :
    ∃ C, CliffordOp.run (circuit.filterMap Instruction.cliffordOp) (.identity n) = some C ∧
      C.ValidOn n := by
  refine validOn_run ?_ (validOn_identity n)
  intro op hop
  obtain ⟨instruction, hmem, hinstruction⟩ := mem_filterMap.mp hop
  obtain ⟨op', hop', hwf⟩ := hcircuit instruction hmem
  rw [hinstruction] at hop'
  cases hop'
  exact hwf

omit hcircuit in
theorem exists_carries (F : FramePropagator) (s : ℕ) : ∃ p : PhasedPauli, F.Carries s p :=
  ⟨⟨0, F.xFrames.column s, F.zFrames.column s⟩,
    fun _ => (index_column _ _ _).symm,
    fun _ => (index_column _ _ _).symm⟩

omit hcircuit in
theorem run_append_singleton (instruction : Instruction) :
    F.run (circuit ++ [instruction]) = (F.run circuit).execute instruction [] := by
  simp [run]

theorem sized_run (hF : F.Sized n) : (F.run circuit).Sized n := by
  induction circuit using List.reverseRecOn with
  | nil => exact hF
  | append_singleton circuit instruction ih =>
    obtain ⟨p, hp⟩ := exists_carries (F.run circuit) 0
    rw [run_append_singleton]
    exact (carries_execute (hcircuit instruction (by simp)) []
      (ih fun i hi => hcircuit i (by simp [hi])) hp).1

theorem carries_run (hinv : ∀ instruction ∈ circuit, PermutesByInvolution instruction)
    (hpauli : pauli.Below n) (hF : F.Sized n) (h : F.Carries s pauli.toPhased) :
    ∃ C, CliffordOp.run (circuit.filterMap Instruction.cliffordOp) (.identity n) = some C ∧
      C.ValidOn n ∧ (F.run circuit).Carries s (C.image pauli).toPhased := by
  induction circuit using List.reverseRecOn with
  | nil =>
    have hvalid := validOn_identity n
    refine ⟨.identity n, rfl, hvalid, ?_⟩
    have hbelow : pauli.Below (CliffordUnitary.identity n).numQubits := by rwa [hvalid.numQubits_eq]
    have hlift := lift_image hvalid.frame hbelow
    rw [frame_identity, lift_identity] at hlift
    rw [hlift]
    exact h
  | append_singleton circuit instruction ih =>
    have hcircuit' : ∀ i ∈ circuit, i.UnitaryOn n := fun i hi => hcircuit i (by simp [hi])
    obtain ⟨C, hrun, hC, hcarries⟩ := ih hcircuit' (fun i hi => hinv i (by simp [hi]))
    obtain ⟨op, hcliffordOp, hop⟩ := hcircuit instruction (by simp)
    obtain ⟨C', happly⟩ := exists_apply_eq_some hop C
    have hsized := sized_run hcircuit' hF
    have hstep := (carries_execute ⟨op, hcliffordOp, hop⟩ [] hsized hcarries).2
    refine ⟨C', ?_, validOn_apply hC hop happly, ?_⟩
    · rw [run_concat hcliffordOp hrun, happly]
    · rw [run_append_singleton, toPhased_image_apply hC hop happly hpauli,
        ← frameConjugation_of_involution hcliffordOp hop (hinv instruction (by simp))]
      exact hstep

end Circuits

theorem shotCount_xorPauli (F : FramePropagator) (pauli : PauliUnitary) (mask : Bits) :
    (F.xorPauli pauli mask).shotCount = F.shotCount := by
  have hx : ∀ (l : List ℕ) (F : FramePropagator),
      (l.foldl (fun F qubit => F.xorX qubit mask) F).shotCount = F.shotCount := by
    intro l
    induction l with
    | nil => exact fun F => rfl
    | cons qubit l ih => exact fun F => ih (F.xorX qubit mask)
  have hz : ∀ (l : List ℕ) (F : FramePropagator),
      (l.foldl (fun F qubit => F.xorZ qubit mask) F).shotCount = F.shotCount := by
    intro l
    induction l with
    | nil => exact fun F => rfl
    | cons qubit l ih => exact fun F => ih (F.xorZ qubit mask)
  rw [xorPauli, hz, hx]

theorem sized_new (n m k : ℕ) : (new n m k).Sized n :=
  ⟨rowCount_zeros n k, rowCount_zeros n k⟩

theorem carries_new (n m k s : ℕ) : (new n m k).Carries s 1 :=
  ⟨fun j => by simp [new], fun j => by simp [new]⟩

theorem carries_applyPauliToShot (shot : ℕ) (hpauli : pauli.Below n)
    (hF : F.Sized n) (h : F.Carries s p) : (F.applyPauliToShot shot pauli).Sized n ∧
      (F.applyPauliToShot shot pauli).Carries s (if shot = s then pauli.toPhased * p else p) := by
  have hcarries := carries_xorPauli hpauli (unit shot) hF h
  simpa [applyPauliToShot] using hcarries

theorem exists_sized_carries (hpauli : pauli.Below n) :
    ∃ F : FramePropagator, F.Sized n ∧ 0 < F.shotCount ∧ F.Carries 0 pauli.toPhased := by
  obtain ⟨hsized, hcarries⟩ := carries_applyPauliToShot (s := 0) 0 hpauli (sized_new n 0 1)
    (carries_new n 0 1 0)
  refine ⟨(new n 0 1).applyPauliToShot 0 pauli, hsized, ?_, ?_⟩
  · rw [applyPauliToShot, shotCount_xorPauli]
    exact Nat.one_pos
  · simpa using hcarries

theorem isInvolution_of_carries {permutation : List ℕ}
    (hop : (CliffordOp.leftMulPermutation permutation qubits).WellFormed n)
    (hagree : ∀ j ∈ qubits, ∃ F : FramePropagator, F.Carries s
        (frameConjugation (.permute permutation qubits) (X j)) ∧
      F.Carries s ((CliffordOp.leftMulPermutation permutation qubits).conjugation (X j))) :
    IsInvolution permutation := by
  refine (isInvolution_iff hop).mpr fun j hj => ?_
  obtain ⟨F, hframe, htableau⟩ := hagree j hj
  have hbits := (hframe.unique htableau).1
  have hsource : (frameConjugation (.permute permutation qubits) (X j)).xBits =
      unit (permutationSource permutation qubits j) :=
    remap_unit _ j
  have htarget : ((CliffordOp.leftMulPermutation permutation qubits).conjugation (X j)).xBits =
      unit (permutationTarget permutation qubits j) := by
    rw [conjugation, lift_X]
    rfl
  rw [hsource, htarget] at hbits
  exact unit_injective hbits

/-- Frames follow the tableau after every instruction exactly when all permutations of the
circuit are involutions. -/
theorem carries_run_iff (circuit : List Instruction)
    (hcircuit : ∀ instruction ∈ circuit, instruction.UnitaryOn n) :
    (∀ (F : FramePropagator) (s : ℕ) (pauli : PauliUnitary), F.Sized n → s < F.shotCount →
        pauli.Below n → F.Carries s pauli.toPhased →
          ∀ k, ∃ C, CliffordOp.run ((circuit.take k).filterMap Instruction.cliffordOp)
              (.identity n) = some C ∧
            (F.run (circuit.take k)).Carries s (C.image pauli).toPhased) ↔
      ∀ instruction ∈ circuit, PermutesByInvolution instruction := by
  constructor
  · intro hall instruction hmem
    obtain ⟨k, hk, rfl⟩ := mem_iff_getElem.mp hmem
    have htake : ∀ i ∈ circuit.take k, i.UnitaryOn n := fun i hi =>
      hcircuit i (mem_of_mem_take hi)
    obtain ⟨C, hrun, hC⟩ := exists_run htake
    obtain ⟨op, hcliffordOp, hop⟩ := hcircuit circuit[k] hmem
    obtain ⟨C', happly⟩ := exists_apply_eq_some hop C
    have hrun' := run_concat hcliffordOp hrun
    have hcons : circuit.take k ++ [circuit[k]] = circuit.take (k + 1) :=
      take_append_getElem hk
    have hagree : ∀ j, j < n → ∃ F : FramePropagator,
        F.Carries 0 (frameConjugation circuit[k] (X j)) ∧ F.Carries 0 (op.conjugation (X j)) := by
      intro j hj
      have hxj : (PauliUnitary.x j).Below C.numQubits := by
        rw [hC.numQubits_eq]
        exact below_X.mpr hj
      have hpauli : (C.preimage (PauliUnitary.x j)).Below n := by
        rw [← hC.numQubits_eq]
        exact below_preimage hC.frame hxj
      have himage : (C.image (C.preimage (PauliUnitary.x j))).toPhased = X j := by
        rw [toPhased_image hC.frame (below_preimage hC.frame hxj), toPhased_preimage hxj,
          lift_imageFrame_lift_frame hC.frame, PauliUnitary.toPhased_x]
      obtain ⟨F, hF, hshot, hcarries⟩ := exists_sized_carries hpauli
      obtain ⟨C₁, hrun₁, hbefore⟩ := hall F 0 _ hF hshot hpauli hcarries k
      obtain ⟨C₂, hrun₂, hafter⟩ := hall F 0 _ hF hshot hpauli hcarries (k + 1)
      rw [← hcons, hrun', happly] at hrun₂
      rw [hrun] at hrun₁
      cases hrun₁
      cases hrun₂
      rw [himage] at hbefore
      rw [toPhased_image_apply hC hop happly hpauli, himage] at hafter
      have hstep := (carries_execute (hcircuit circuit[k] hmem) [] (sized_run htake hF) hbefore).2
      rw [← run_append_singleton, hcons] at hstep
      exact ⟨_, hstep, hafter⟩
    cases hins : circuit[k] with
    | permute permutation qubits =>
      rw [hins] at hcliffordOp hagree
      obtain rfl := some_inj.mp hcliffordOp
      exact isInvolution_of_carries hop fun j hj => hagree j (hop.2.2.2 j hj)
    | _ => trivial
  · intro hinv F s pauli hF _ hpauli hcarries k
    obtain ⟨C, hrun, _, hC⟩ := carries_run (fun i hi => hcircuit i (mem_of_mem_take hi))
      (fun i hi => hinv i (mem_of_mem_take hi)) hpauli hF hcarries
    exact ⟨C, hrun, hC⟩

theorem carries_run_iff_swap : ∃ C, CliffordOp.run ([Instruction.permute [1, 0] [0, 1],
          .unitary .Hadamard [0]].filterMap Instruction.cliffordOp) (.identity 2) = some C ∧
      (((new 2 0 1).applyPauliToShot 0 (PauliUnitary.x 0)).run
        [.permute [1, 0] [0, 1], .unitary .Hadamard [0]]).Carries 0
          (C.image (PauliUnitary.x 0)).toPhased := by
  have hx : (PauliUnitary.x 0).Below 2 := by decide
  obtain ⟨hsized, hcarries⟩ := carries_applyPauliToShot (s := 0) 0 hx (sized_new 2 0 1)
    (carries_new 2 0 1 0)
  exact (carries_run_iff (n := 2) [.permute [1, 0] [0, 1], .unitary .Hadamard [0]]
    (by decide)).mpr (by decide) _ 0 _ hsized (by decide) hx (by simpa using hcarries) 2

/-- A cyclic permutation moves the frame to another qubit than the image. -/
theorem not_carries_run_cycle :
    ¬ ∃ C, CliffordOp.run ([Instruction.permute [2, 0, 1] [0, 1, 2]].filterMap
          Instruction.cliffordOp) (.identity 3) = some C ∧
      (((new 3 0 1).applyPauliToShot 0 (PauliUnitary.x 0)).run
        [.permute [2, 0, 1] [0, 1, 2]]).Carries 0 (C.image (PauliUnitary.x 0)).toPhased := by
  rintro ⟨C, hrun, hcarries⟩
  have himage : ((CliffordOp.run ([Instruction.permute [2, 0, 1] [0, 1, 2]].filterMap
      Instruction.cliffordOp) (.identity 3)).map fun C =>
        (C.image (PauliUnitary.x 0)).xBits.index 2) = some false := by
    decide
  have hframe : ((((new 3 0 1).applyPauliToShot 0 (PauliUnitary.x 0)).run
      [.permute [2, 0, 1] [0, 1, 2]]).xFrames.row 2).index 0 = true := by
    decide
  have hbit := hcarries.xBits 2
  rw [hrun, map_some, some_inj] at himage
  rw [hframe, PauliUnitary.toPhased_xBits, himage] at hbit
  contradiction

end FramePropagator

end QdkEc
