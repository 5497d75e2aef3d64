import QdkEc.Lib.PhasedPauli

/-!
# Pauli unitaries

This module models `PauliUnitary`: two bit sets and a raw `u8` phase exponent
that only counts modulo four.  Every operation is related to the phased Pauli
group through `toPhased`.
-/

namespace QdkEc

open PhasedPauli

/-- A Pauli unitary with its raw phase exponent. -/
structure PauliUnitary where
  xBits : Bits
  zBits : Bits
  xzPhaseExp : UInt8
deriving DecidableEq

namespace PauliUnitary

/-- The residue modulo four that a raw phase exponent stands for. -/
def phaseResidue (e : UInt8) : ZMod 4 :=
  (e.toNat : ZMod 4)

def phaseValue (e : UInt8) : UInt8 :=
  e % 4

/-- Two raw phase exponents denote the same phase. -/
def rawEq (e f : UInt8) : Bool :=
  (e - f) % 4 == 0

theorem natCast_mod_four_mod (m k : ℕ) (h : 4 ∣ k) : ((m % k : ℕ) : ZMod 4) = m := by
  rw [ZMod.natCast_eq_natCast_iff]
  exact (Nat.mod_modEq m k).of_dvd h

@[simp]
theorem phaseResidue_add (e f : UInt8) :
    phaseResidue (e + f) = phaseResidue e + phaseResidue f := by
  unfold phaseResidue
  rw [UInt8.toNat_add, natCast_mod_four_mod _ _ (by decide), Nat.cast_add]

theorem phaseResidue_sub (e f : UInt8) : phaseResidue (e - f) =
    phaseResidue e - phaseResidue f := by
  have hadd := phaseResidue_add (e - f) f
  rw [UInt8.sub_add_cancel] at hadd
  rw [hadd, add_sub_cancel_right]

variable (e : UInt8)

@[simp]
theorem phaseResidue_phaseValue : phaseResidue (phaseValue e) = phaseResidue e := by
  unfold phaseResidue phaseValue
  exact natCast_mod_four_mod _ 4 (dvd_refl 4)

@[simp]
theorem phaseResidue_four_sub : phaseResidue (4 - phaseValue e) = -phaseResidue e := by
  have hsum : phaseResidue (4 - phaseValue e + phaseValue e) = 0 := by
    rw [UInt8.sub_add_cancel]
    rfl
  rw [phaseResidue_add, phaseResidue_phaseValue] at hsum
  exact eq_neg_of_add_eq_zero_left hsum

theorem phaseResidue_eq_zero_iff {e : UInt8} : phaseResidue e = 0 ↔ e % 4 = 0 := by
  unfold phaseResidue
  rw [ZMod.natCast_eq_zero_iff, ← UInt8.toNat_inj, UInt8.toNat_mod]
  exact Nat.dvd_iff_mod_eq_zero

theorem rawEq_iff {e f : UInt8} : rawEq e f = true ↔ phaseResidue e = phaseResidue f := by
  unfold rawEq
  rw [beq_iff_eq, ← phaseResidue_eq_zero_iff, phaseResidue_sub, sub_eq_zero]

/-- The operator denoted by a Pauli unitary. -/
def toPhased (p : PauliUnitary) : PhasedPauli where
  phase := phaseResidue p.xzPhaseExp
  xBits := p.xBits
  zBits := p.zBits

variable (p : PauliUnitary)

@[simp]
theorem toPhased_xBits : p.toPhased.xBits = p.xBits :=
  rfl

@[simp]
theorem toPhased_zBits : p.toPhased.zBits = p.zBits :=
  rfl

@[simp]
theorem toPhased_phase : p.toPhased.phase = phaseResidue p.xzPhaseExp :=
  rfl

/-- The identity. -/
def neutralElement : PauliUnitary where
  xBits := 0
  zBits := 0
  xzPhaseExp := 0

def x (qubit : ℕ) : PauliUnitary where
  xBits := Bits.unit qubit
  zBits := 0
  xzPhaseExp := 0

def z (qubit : ℕ) : PauliUnitary where
  xBits := 0
  zBits := Bits.unit qubit
  xzPhaseExp := 0

/-- The Pauli as stored by an assignment, its phase reduced modulo four. -/
def assigned (rhs : PauliUnitary) : PauliUnitary :=
  { rhs with xzPhaseExp := phaseValue rhs.xzPhaseExp }

/-- Multiply by a power of `i`. -/
def addAssignPhaseExp (p : PauliUnitary) (value : UInt8) : PauliUnitary :=
  { p with xzPhaseExp := p.xzPhaseExp + value }

/-- Multiply by the phase of another Pauli. -/
def mulAssignPhaseFrom (p other : PauliUnitary) : PauliUnitary :=
  p.addAssignPhaseExp (phaseValue other.xzPhaseExp)

def complexConjugate (p : PauliUnitary) : PauliUnitary :=
  { p with xzPhaseExp := 4 - phaseValue p.xzPhaseExp }

/-- Multiply by another Pauli on the right. -/
def mulAssignRight (p rhs : PauliUnitary) : PauliUnitary where
  xBits := p.xBits + rhs.xBits
  zBits := p.zBits + rhs.zBits
  xzPhaseExp :=
    p.xzPhaseExp + ((if Bits.dot p.zBits rhs.xBits then 2 else 0) + phaseValue rhs.xzPhaseExp)

/-- Multiply by another Pauli on the left. -/
def mulAssignLeft (p lhs : PauliUnitary) : PauliUnitary where
  xBits := p.xBits + lhs.xBits
  zBits := p.zBits + lhs.zBits
  xzPhaseExp :=
    p.xzPhaseExp + ((if Bits.dot p.xBits lhs.zBits then 2 else 0) + phaseValue lhs.xzPhaseExp)

/-- The number of `Y` factors is odd. -/
def yParity (p : PauliUnitary) : Bool :=
  Bits.dot p.xBits p.zBits

/-- The Pauli squares to the identity. -/
def isOrderTwo (p : PauliUnitary) : Bool :=
  p.yParity ^^ (p.xzPhaseExp &&& 1 == 0)

/-- Two Paulis anticommute. -/
def antiCommutesWith (left right : PauliUnitary) : Bool :=
  Bits.dot left.xBits right.zBits ^^ Bits.dot left.zBits right.xBits

/-- Two Paulis commute. -/
def commutesWith (left right : PauliUnitary) : Bool :=
  !antiCommutesWith left right

/-- Two Paulis are equal, their phases counted modulo four. -/
def equalsTo (p q : PauliUnitary) : Bool :=
  phaseValue p.xzPhaseExp == phaseValue q.xzPhaseExp &&
    (p.xBits == q.xBits && p.zBits == q.zBits)

/-- The Pauli acts on the first `n` qubits only. -/
def Below (n : ℕ) (p : PauliUnitary) : Prop :=
  p.toPhased.Below n

instance (n : ℕ) (p : PauliUnitary) : Decidable (Below n p) :=
  inferInstanceAs (Decidable (_ ∧ _))

theorem phaseResidue_cross (b : Bool) : phaseResidue (if b then 2 else 0) = twist b := by
  cases b <;> rfl

@[simp]
theorem toPhased_neutralElement : neutralElement.toPhased = 1 :=
  rfl

@[simp]
theorem toPhased_x (qubit : ℕ) : (x qubit).toPhased = X qubit :=
  rfl

@[simp]
theorem toPhased_z (qubit : ℕ) : (z qubit).toPhased = Z qubit :=
  rfl

@[simp]
theorem toPhased_assigned (rhs : PauliUnitary) : rhs.assigned.toPhased = rhs.toPhased := by
  ext1
  · exact phaseResidue_phaseValue rhs.xzPhaseExp
  · rfl
  · rfl

theorem toPhased_addAssignPhaseExp (value : UInt8) :
    (p.addAssignPhaseExp value).toPhased = iPow (phaseResidue value) * p.toPhased := by
  ext1
  · simp [addAssignPhaseExp, add_comm]
  · simp [addAssignPhaseExp]
  · simp [addAssignPhaseExp]

theorem toPhased_mulAssignPhaseFrom (p other : PauliUnitary) :
    (p.mulAssignPhaseFrom other).toPhased = iPow other.toPhased.phase * p.toPhased := by
  unfold mulAssignPhaseFrom
  rw [toPhased_addAssignPhaseExp, phaseResidue_phaseValue, toPhased_phase]

@[simp]
theorem toPhased_mulAssignRight (p rhs : PauliUnitary) :
    (p.mulAssignRight rhs).toPhased = p.toPhased * rhs.toPhased := by
  ext1
  · simp only [mulAssignRight, toPhased_phase, phaseResidue_add, phaseResidue_cross,
      phaseResidue_phaseValue, mul_phase, toPhased_zBits, toPhased_xBits]
    ring
  · rfl
  · rfl

@[simp]
theorem toPhased_mulAssignLeft (p lhs : PauliUnitary) :
    (p.mulAssignLeft lhs).toPhased = lhs.toPhased * p.toPhased := by
  ext1
  · simp only [mulAssignLeft, toPhased_phase, phaseResidue_add, phaseResidue_cross,
      phaseResidue_phaseValue, mul_phase, toPhased_zBits, toPhased_xBits,
      Bits.dot_comm p.xBits]
    ring
  · simp [mulAssignLeft, add_comm]
  · simp [mulAssignLeft, add_comm]

theorem antiCommutesWith_eq (left right : PauliUnitary) :
    antiCommutesWith left right = anti left.toPhased right.toPhased :=
  rfl

theorem toPhased_injective_iff {p q : PauliUnitary} : p.toPhased = q.toPhased ↔
      phaseResidue p.xzPhaseExp = phaseResidue q.xzPhaseExp ∧ p.xBits = q.xBits ∧
        p.zBits = q.zBits :=
  PhasedPauli.ext_iff

theorem equalsTo_iff {p q : PauliUnitary} : p.equalsTo q = true ↔ p.toPhased = q.toPhased := by
  have hvalue : phaseValue p.xzPhaseExp = phaseValue q.xzPhaseExp ↔
      phaseResidue p.xzPhaseExp = phaseResidue q.xzPhaseExp := by
    unfold phaseValue phaseResidue
    rw [← UInt8.toNat_inj, UInt8.toNat_mod, UInt8.toNat_mod, ZMod.natCast_eq_natCast_iff]
    rfl
  simp [equalsTo, toPhased_injective_iff, hvalue]

theorem phaseValue_eq_two_iff : (phaseValue e == 2) = decide (phaseResidue e = 2) := by
  have htwo : phaseResidue e = phaseResidue 2 ↔ phaseValue e = phaseValue 2 := by
    unfold phaseValue phaseResidue
    rw [← UInt8.toNat_inj, UInt8.toNat_mod, UInt8.toNat_mod, ZMod.natCast_eq_natCast_iff]
    rfl
  rw [Bool.eq_iff_iff, beq_iff_eq, decide_eq_true_iff]
  exact htwo.symm

theorem phase_even_iff :
    (e &&& 1 == 0) = decide (phaseResidue e + phaseResidue e = 0) := by
  have hbit : (e &&& 1 == 0) = decide (e.toNat % 2 = 0) := by
    rw [Bool.eq_iff_iff, beq_iff_eq, decide_eq_true_iff, ← UInt8.toNat_inj, UInt8.toNat_and]
    change e.toNat &&& 1 = 0 ↔ _
    rw [Nat.and_one_is_mod]
  have hdouble : phaseResidue e + phaseResidue e = ((2 * e.toNat : ℕ) : ZMod 4) := by
    unfold phaseResidue
    push_cast
    ring
  rw [hbit, hdouble, Bool.eq_iff_iff, decide_eq_true_iff, decide_eq_true_iff,
    ZMod.natCast_eq_zero_iff]
  omega

theorem isOrderTwo_iff {p : PauliUnitary} : p.isOrderTwo = true ↔ p.toPhased.OrderTwo := by
  unfold isOrderTwo yParity
  rw [orderTwo_iff_phase, phase_even_iff, toPhased_phase, toPhased_zBits, toPhased_xBits,
    Bits.dot_comm p.zBits]
  generalize phaseResidue p.xzPhaseExp = k
  generalize Bits.dot p.xBits p.zBits = b
  revert k b
  decide

theorem toPhased_complexConjugate :
    p.complexConjugate.toPhased = ⟨-p.toPhased.phase, p.xBits, p.zBits⟩ := by
  ext1
  · simp [complexConjugate]
  · rfl
  · rfl

end PauliUnitary

/-- The last position of a bit set. -/
def Bits.maxSupport (b : Bits) : Option ℕ :=
  b.support.getLast?

/-- The highest qubit of a Pauli. -/
def PauliUnitary.maxSupport (p : PauliUnitary) : Option ℕ :=
  match p.xBits.maxSupport, p.zBits.maxSupport with
  | none, none => none
  | none, some id => some id
  | some id, none => some id
  | some id1, some id2 => some (max id1 id2)

theorem Bits.below_iff_maxSupport {n : ℕ} {b : Bits} : b.Below n ↔ ∀ id ∈ b.maxSupport, id < n := by
  have hsorted : b.support.Pairwise (· ≤ ·) :=
    (List.Pairwise.filter _ List.pairwise_lt_range).imp fun h => le_of_lt h
  constructor
  · intro h id hid
    exact h.lt_of_index (Bits.mem_support.mp (List.mem_of_getLast? hid))
  · intro h
    rw [Bits.below_iff]
    intro i hi
    by_contra hindex
    have hmem : i ∈ b.support := Bits.mem_support.mpr (by simpa using hindex)
    have hlast := h _ (List.getLast_mem_getLast? (List.ne_nil_of_mem hmem))
    have hle := hsorted.rel_getLast hmem
    omega

theorem PauliUnitary.below_iff_maxSupport {n : ℕ} {p : PauliUnitary} :
    p.Below n ↔ ∀ id ∈ p.maxSupport, id < n := by
  change p.xBits.Below n ∧ p.zBits.Below n ↔ _
  rw [Bits.below_iff_maxSupport, Bits.below_iff_maxSupport, PauliUnitary.maxSupport]
  cases p.xBits.maxSupport <;> cases p.zBits.maxSupport <;> simp

end QdkEc
