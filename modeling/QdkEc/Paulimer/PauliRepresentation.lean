import QdkEc.Binar.BitVectors
import QdkEc.Paulimer.PauliUnitary

/-!
# Multiplication of stored Paulis

This module models the multiplication of `PauliUnitary` over its storages:
`DensePauli` and row views keep aligned words, `SparsePauli` keeps index sets.
It proves for which operands the product in place is the product in the phased
Pauli group, through the path over aligned words and through the generic path.
-/

namespace QdkEc

open PhasedPauli Option PauliUnitary

/-- The kinds of storage: dense Paulis and row views keep aligned words, sparse ones index sets. -/
inductive BitsKind where
  | aligned
  | indexSet
deriving DecidableEq

/-- The storage of one bit set of a Pauli. -/
inductive PauliBits : BitsKind → Type where
  | aligned (bits : AlignedBitVec) : PauliBits .aligned
  | indexSet (bits : IndexSet) : PauliBits .indexSet

namespace PauliBits

variable {k l : BitsKind}

/-- The bit set that is stored. -/
def toBits : PauliBits k → Bits
  | aligned bits => bits.toBits
  | indexSet bits => bits.toBits

/-- The number of bits that a storage can hold; `none` is any number. -/
def capacity : PauliBits k → Option ℕ
  | aligned bits => some bits.bitLen
  | indexSet _ => none

/-- The bit at an index; `none` is a panic. -/
def index : PauliBits k → ℕ → Option Bool
  | aligned bits, i => bits.index i
  | indexSet bits, i => some (bits.index i)

/-- The indices of the ones in ascending order. -/
def support : PauliBits k → List ℕ
  | aligned bits => bits.support
  | indexSet bits => bits.support

/-- The parity of the common positions; `none` is a panic. -/
def dot : PauliBits k → PauliBits l → Option Bool
  | aligned bits, aligned other => some (bits.dot other)
  | indexSet bits, other => bits.dot other.index
  | aligned other, indexSet bits => bits.dot (aligned other).index

/-- Add another bit set in place; `none` is a panic. -/
def bitxorAssign : PauliBits k → PauliBits l → Option (PauliBits k)
  | aligned bits, aligned other => some (aligned (bits.bitxorAssign other))
  | aligned bits, indexSet other => (bits.bitxorAssignIndexSet other).map aligned
  | indexSet bits, other => some (indexSet (bits.bitxorAssign other.support))

/-- A bit set fits in a capacity. -/
def Holds (capacity : Option ℕ) (b : Bits) : Prop :=
  ∀ n ∈ capacity, b.Below n

variable (s : PauliBits k)

theorem holds_capacity : Holds s.capacity s.toBits := by
  cases s with
  | aligned bits =>
    rintro n ⟨rfl⟩
    exact bits.below_toBits
  | indexSet bits => rintro n ⟨⟩

theorem ofList_support : Bits.ofList s.support = s.toBits := by
  cases s with
  | aligned bits => exact Bits.ofList_support bits.toBits
  | indexSet bits => exact bits.ofList_support

/-- What two storages need for their pairing: an index set must lie within aligned words. -/
def DotFits (a b : Option ℕ) (x y : Bits) : Prop :=
  (a = none → Holds b x) ∧ (b = none → Holds a y)

theorem indexSet_dot_spec (bits : IndexSet) (other : PauliBits l) :
    (Holds other.capacity bits.toBits →
        bits.dot other.index = some (Bits.dot bits.toBits other.toBits)) ∧
      (¬ Holds other.capacity bits.toBits → bits.dot other.index = none) := by
  cases other with
  | aligned other =>
    have hiff : Holds (some other.bitLen) bits.toBits ↔ ∀ i ∈ bits.support, i < other.bitLen := by
      rw [← IndexSet.below_toBits_iff]
      simp [Holds]
    constructor
    · intro h
      refine IndexSet.dot_eq_some fun i hi => ?_
      rw [index, AlignedBitVec.index_eq, if_pos (hiff.mp h i hi)]
      rfl
    · intro h
      rw [capacity, hiff] at h
      push Not at h
      obtain ⟨i, hi, hge⟩ := h
      refine IndexSet.dot_eq_none hi ?_
      rw [index, AlignedBitVec.index_eq, if_neg (by omega)]
  | indexSet other =>
    refine ⟨fun _ => IndexSet.dot_eq_some fun i _ => ?_, fun h => ?_⟩
    · rw [index, ← IndexSet.index_toBits]
      rfl
    · exact absurd (fun n hn => by cases hn) h

theorem dot_eq_some_iff (t : PauliBits l) :
    s.dot t = some (Bits.dot s.toBits t.toBits) ↔
      DotFits s.capacity t.capacity s.toBits t.toBits := by
  have hiff : ∀ {l : BitsKind} (bits : IndexSet) (other : PauliBits l),
      bits.dot other.index = some (Bits.dot bits.toBits other.toBits) ↔
        Holds other.capacity bits.toBits := by
    intro l bits other
    obtain ⟨hsome, hnone⟩ := indexSet_dot_spec bits other
    refine ⟨fun h => ?_, hsome⟩
    by_contra hnot
    rw [hnone hnot] at h
    cases h
  cases s with
  | aligned bits =>
    cases t with
    | aligned other => simp [dot, AlignedBitVec.dot_eq, DotFits, capacity, toBits]
    | indexSet other =>
      have h := hiff other (aligned bits)
      rw [Bits.dot_comm] at h
      simpa [dot, DotFits, capacity, toBits] using h
  | indexSet bits =>
    cases t with
    | aligned other => simpa [dot, DotFits, capacity, toBits] using hiff bits (aligned other)
    | indexSet other =>
      have h := hiff bits (indexSet other)
      simpa [dot, DotFits, capacity, toBits, Holds] using h

theorem capacity_bitxorAssign {s s' : PauliBits k} {t : PauliBits l}
    (h : s.bitxorAssign t = some s') : s'.capacity = s.capacity := by
  cases s with
  | aligned bits =>
    cases t with
    | aligned other =>
      obtain rfl := some_inj.mp h
      simp [capacity]
    | indexSet other =>
      have hspec := bits.bitxorAssignIndexSet_spec other
      obtain ⟨v, hv, rfl⟩ := map_eq_some_iff.mp h
      split_ifs at hspec
      · obtain ⟨v', hv', _, hlen⟩ := hspec
        obtain rfl := some_inj.mp (hv'.symm.trans hv)
        exact congrArg some hlen
      · rw [hspec] at hv
        cases hv
  | indexSet bits =>
    obtain rfl := some_inj.mp h
    rfl

theorem exists_bitxorAssign_iff (t : PauliBits l) :
    (∃ s', s.bitxorAssign t = some s' ∧ s'.toBits = s.toBits + t.toBits) ↔
      Holds s.capacity t.toBits := by
  cases s with
  | aligned bits =>
    cases t with
    | aligned other =>
      have hsum : (bits.bitxorAssign other).toBits = bits.toBits + other.toBits ↔
          other.toBits.Below bits.bitLen := by
        rw [AlignedBitVec.toBits_bitxorAssign, add_right_inj, Bits.low_eq_self_iff]
      simpa [bitxorAssign, toBits, Holds, capacity] using hsum
    | indexSet other =>
      have hspec := bits.bitxorAssignIndexSet_spec other
      simp only [bitxorAssign, toBits, Holds, capacity, mem_some_iff, forall_eq']
      split_ifs at hspec with hbelow
      · obtain ⟨v, hv, hbits, _⟩ := hspec
        exact iff_of_true ⟨aligned v, by simp [hv], hbits⟩ hbelow
      · rw [hspec]
        exact iff_of_false (by simp) hbelow
  | indexSet bits =>
    refine iff_of_true ⟨_, rfl, ?_⟩ (fun n hn => by cases hn)
    change (bits.bitxorAssign t.support).toBits = _
    rw [IndexSet.toBits_bitxorAssign, ofList_support]
    rfl

end PauliBits

/-- A Pauli unitary over some storage. -/
structure StoredPauli (k : BitsKind) where
  xBits : PauliBits k
  zBits : PauliBits k
  xzPhaseExp : UInt8

/-- How many bits the storages of a Pauli can hold. -/
structure PauliCapacity where
  x : Option ℕ
  z : Option ℕ

namespace StoredPauli

variable {k l : BitsKind}

def toPauliUnitary (p : StoredPauli k) : PauliUnitary where
  xBits := p.xBits.toBits
  zBits := p.zBits.toBits
  xzPhaseExp := p.xzPhaseExp

/-- The operator that is stored. -/
def toPhased (p : StoredPauli k) : PhasedPauli :=
  p.toPauliUnitary.toPhased

/-- The capacities of the storages. -/
def capacity (p : StoredPauli k) : PauliCapacity where
  x := p.xBits.capacity
  z := p.zBits.capacity

/-- Multiply the bits by another Pauli in one pass over aligned words, with the cross parity;
`none` when an operand is not stored in aligned blocks. -/
def mulAssignAlignedBits (right : Bool) :
    {k l : BitsKind} → StoredPauli k → StoredPauli l → Option (PauliBits k × PauliBits k × Bool)
  | .aligned, .aligned, ⟨.aligned x, .aligned z, _⟩, ⟨.aligned otherX, .aligned otherZ, _⟩ =>
    let product := mulAssignWords right x.words z.words otherX.words otherZ.words 0
    have hlength := length_mulAssignWords right x.words z.words otherX.words otherZ.words 0
    some (.aligned ⟨product.1, hlength.1 ▸ x.blocks_aligned⟩,
      .aligned ⟨product.2.1, hlength.2 ▸ z.blocks_aligned⟩, product.2.2.parity)
  | .aligned, .indexSet, _, _ => none
  | .indexSet, _, _, _ => none

/-- The parity that gives the sign of a product; `none` is a panic. -/
def storedCrossParity (right : Bool) (p : StoredPauli k) (other : StoredPauli l) : Option Bool :=
  if right then p.zBits.dot other.xBits else p.xBits.dot other.zBits

/-- Multiply the bits by another Pauli with the operations of the storages; `none` is a panic. -/
def addAssignBits (right : Bool) (p : StoredPauli k) (other : StoredPauli l) :
    Option (PauliBits k × PauliBits k × Bool) := do
  let crossParity ← storedCrossParity right p other
  let xBits ← p.xBits.bitxorAssign other.xBits
  let zBits ← p.zBits.bitxorAssign other.zBits
  some (xBits, zBits, crossParity)

/-- Store a product and add the phases. -/
def withProduct (p : StoredPauli k) (other : StoredPauli l)
    (product : PauliBits k × PauliBits k × Bool) :
    StoredPauli k where
  xBits := product.1
  zBits := product.2.1
  xzPhaseExp :=
    p.xzPhaseExp + ((if product.2.2 then 2 else 0) + PauliUnitary.phaseValue other.xzPhaseExp)

/-- Multiply in place, on the right or on the left; `none` is a panic. -/
def mulAssign (right : Bool) (p : StoredPauli k) (other : StoredPauli l) : Option (StoredPauli k) :=
  ((mulAssignAlignedBits right p other).or (addAssignBits right p other)).map (p.withProduct other)

/-- Multiply in place through the generic path only. -/
def mulAssignGeneric (right : Bool) (p : StoredPauli k) (other : StoredPauli l) :
    Option (StoredPauli k) :=
  (addAssignBits right p other).map (p.withProduct other)

/-- Multiply in place by another Pauli on the right. -/
def mulAssignRight (p : StoredPauli k)
    (rhs : StoredPauli l) :
    Option (StoredPauli k) :=
  mulAssign true p rhs

/-- Multiply in place by another Pauli on the left. -/
def mulAssignLeft (p : StoredPauli k)
    (lhs : StoredPauli l) :
    Option (StoredPauli k) :=
  mulAssign false p lhs

/-- Two Paulis anticommute; `none` is a panic. -/
def antiCommutesWith (left : StoredPauli k)
    (right : StoredPauli l) : Option Bool := do
  let xz ← left.xBits.dot right.zBits
  let zx ← left.zBits.dot right.xBits
  some (xz ^^ zx)

/-- The number of `Y` factors is odd; `none` is a panic. -/
def yParity (p : StoredPauli k) : Option Bool :=
  p.xBits.dot p.zBits

/-- The Pauli squares to the identity; `none` is a panic. -/
def isOrderTwo (p : StoredPauli k) : Option Bool := do
  let yParity ← p.yParity
  some (yParity ^^ (p.xzPhaseExp &&& 1 == 0))

def complexConjugate (p : StoredPauli k) : StoredPauli k :=
  { p with xzPhaseExp := 4 - PauliUnitary.phaseValue p.xzPhaseExp }

/-- Multiply by minus one. -/
def negate (p : StoredPauli k) : StoredPauli k :=
  { p with xzPhaseExp := p.xzPhaseExp + 2 }

/-- Replace the Pauli by its inverse; `none` is a panic. -/
def invert (p : StoredPauli k) : Option (StoredPauli k) := do
  let p := p.complexConjugate
  let yParity ← p.yParity
  some (if yParity then p.negate else p)

section Product

variable (right : Bool) (p : StoredPauli k) (other : StoredPauli l)

def crossParity (p q : PhasedPauli) : Bool :=
  if right then Bits.dot p.zBits q.xBits else Bits.dot p.xBits q.zBits

/-- The product on the chosen side. -/
def sideMul (p q : PhasedPauli) : PhasedPauli :=
  if right then p * q else q * p

theorem toPhased_withProduct_iff (product : PauliBits k × PauliBits k × Bool) :
    (p.withProduct other product).toPhased = sideMul right p.toPhased other.toPhased ↔
      product.1.toBits = p.xBits.toBits + other.xBits.toBits ∧
        product.2.1.toBits = p.zBits.toBits + other.zBits.toBits ∧
          product.2.2 = crossParity right p.toPhased other.toPhased := by
  have hphase : ∀ b c : Bool, phaseResidue (p.xzPhaseExp +
      ((if b then 2 else 0) + phaseValue other.xzPhaseExp)) =
        phaseResidue p.xzPhaseExp + phaseResidue other.xzPhaseExp +
          twist c ↔ b = c := by
    intro b c
    rw [phaseResidue_add, phaseResidue_add, phaseResidue_cross, phaseResidue_phaseValue, add_assoc,
      add_right_inj, add_comm, add_right_inj, twist_injective.eq_iff]
  rw [PhasedPauli.ext_iff, and_comm, and_assoc]
  cases right with
  | false =>
    have hcross := hphase product.2.2 (Bits.dot p.xBits.toBits other.zBits.toBits)
    simpa [withProduct, toPhased, toPauliUnitary, sideMul, crossParity, add_comm,
      Bits.dot_comm other.zBits.toBits] using fun _ _ => hcross
  | true =>
    have hcross := hphase product.2.2 (Bits.dot p.zBits.toBits other.xBits.toBits)
    simpa [withProduct, toPhased, toPauliUnitary, sideMul, crossParity] using fun _ _ => hcross

/-- The storages suit the generic path: index sets lie within aligned words where a pairing is
taken, and the words hold the bits that are added. -/
def FitsGeneric (right : Bool) (s t : PauliCapacity) (p q : PhasedPauli) : Prop :=
  (if right then PauliBits.DotFits s.z t.x p.zBits q.xBits
    else PauliBits.DotFits s.x t.z p.xBits q.zBits) ∧
      PauliBits.Holds s.x q.xBits ∧ PauliBits.Holds s.z q.zBits

/-- The storages suit a product: in one pass over words all four operands hold the bits that are
added, and elsewhere they suit the generic path. -/
def Fits (right : Bool) (s t : PauliCapacity) (p q : PhasedPauli) : Prop :=
  match s.x, s.z, t.x, t.z with
  | some a, some b, some c, some d => q.Below (min (min a b) (min c d))
  | _, _, _, _ => FitsGeneric right s t p q

theorem addAssignBits_exact_iff : (∃ product, addAssignBits right p other = some product ∧
        (p.withProduct other product).toPhased = sideMul right p.toPhased other.toPhased) ↔
      FitsGeneric right p.capacity other.capacity p.toPhased other.toPhased := by
  have hx := PauliBits.exists_bitxorAssign_iff p.xBits other.xBits
  have hz := PauliBits.exists_bitxorAssign_iff p.zBits other.zBits
  have hdot : storedCrossParity right p other =
        some (crossParity right p.toPhased other.toPhased) ↔
      if right then PauliBits.DotFits p.zBits.capacity other.xBits.capacity p.zBits.toBits
          other.xBits.toBits
        else PauliBits.DotFits p.xBits.capacity other.zBits.capacity p.xBits.toBits
          other.zBits.toBits := by
    cases right with
    | false => exact PauliBits.dot_eq_some_iff p.xBits other.zBits
    | true => exact PauliBits.dot_eq_some_iff p.zBits other.xBits
  rw [FitsGeneric]
  refine Iff.trans ?_ (and_congr hdot (and_congr hx hz))
  constructor
  · rintro ⟨product, hproduct, hexact⟩
    obtain ⟨hxBits, hzBits, hcross⟩ := (toPhased_withProduct_iff right p other product).mp hexact
    obtain ⟨cross, hcross', hproduct⟩ := bind_eq_some_iff.mp hproduct
    obtain ⟨x, hx', hproduct⟩ := bind_eq_some_iff.mp hproduct
    obtain ⟨z, hz', hproduct⟩ := bind_eq_some_iff.mp hproduct
    obtain rfl := some_inj.mp hproduct
    exact ⟨hcross'.trans (congrArg some hcross), ⟨x, hx', hxBits⟩, ⟨z, hz', hzBits⟩⟩
  · rintro ⟨hcross, ⟨x, hx', hxBits⟩, ⟨z, hz', hzBits⟩⟩
    refine ⟨(x, z, crossParity right p.toPhased other.toPhased), ?_,
      (toPhased_withProduct_iff right p other _).mpr ⟨hxBits, hzBits, rfl⟩⟩
    simp [addAssignBits, hcross, hx', hz']

theorem mulAssignAlignedBits_exact_iff {product : PauliBits k × PauliBits k × Bool}
    (h : mulAssignAlignedBits right p other = some product) :
    (p.withProduct other product).toPhased = sideMul right p.toPhased other.toPhased ↔
      Fits right p.capacity other.capacity p.toPhased other.toPhased := by
  obtain ⟨px, pz, e⟩ := p
  obtain ⟨ox, oz, f⟩ := other
  cases px with
  | indexSet _ => cases h
  | aligned x =>
  cases ox with
  | indexSet _ =>
    cases pz
    cases h
  | aligned otherX =>
  obtain ⟨z⟩ := pz
  obtain ⟨otherZ⟩ := oz
  obtain rfl := some_inj.mp h
  rw [toPhased_withProduct_iff]
  obtain ⟨hx, hz, hparity⟩ :=
    mulAssignWords_spec right x.words z.words otherX.words otherZ.words
  set n := 64 * min (min x.words.length z.words.length)
    (min otherX.words.length otherZ.words.length) with hn
  have hcapacity : min (min x.bitLen z.bitLen) (min otherX.bitLen otherZ.bitLen) = n := by
    simp only [AlignedBitVec.bitLen, hn]
    omega
  have hfits : Fits right (capacity ⟨.aligned x, .aligned z, e⟩)
      (capacity ⟨.aligned otherX, .aligned otherZ, f⟩) (toPhased ⟨.aligned x, .aligned z, e⟩)
        (toPhased ⟨.aligned otherX, .aligned otherZ, f⟩) ↔
      otherX.toBits.Below n ∧ otherZ.toBits.Below n := by
    rw [← hcapacity]
    rfl
  have hsum : ∀ {b c : Bits}, b + Bits.low n c = b + c ↔ c.Below n := by
    intro b c
    rw [add_right_inj, Bits.low_eq_self_iff]
  rw [hfits]
  refine Iff.trans (and_congr ((congrArg (· = _) hx).to_iff.trans hsum)
    (and_congr_left' ((congrArg (· = _) hz).to_iff.trans hsum))) ?_
  rw [← and_assoc]
  refine and_iff_left_of_imp ?_
  rintro ⟨hbelowX, hbelowZ⟩
  refine hparity.trans ?_
  cases right with
  | false =>
    change Bits.dot (Bits.low n x.toBits) (Bits.low n (Bits.ofWords otherZ.words)) = _
    rw [Bits.low_eq_self hbelowZ, Bits.dot_low _ hbelowZ]
    rfl
  | true =>
    change Bits.dot (Bits.low n z.toBits) (Bits.low n (Bits.ofWords otherX.words)) = _
    rw [Bits.low_eq_self hbelowX, Bits.dot_low _ hbelowX]
    rfl

theorem Fits.generic {right : Bool} {p : StoredPauli k} {other : StoredPauli l}
    (h : Fits right p.capacity other.capacity p.toPhased other.toPhased) :
    FitsGeneric right p.capacity other.capacity p.toPhased other.toPhased := by
  obtain ⟨px, pz, e⟩ := p
  obtain ⟨ox, oz, f⟩ := other
  cases px with
  | indexSet _ => exact h
  | aligned x =>
    cases ox with
    | indexSet _ =>
      obtain ⟨z⟩ := pz
      exact h
    | aligned otherX =>
      obtain ⟨z⟩ := pz
      obtain ⟨otherZ⟩ := oz
      have hbelow : PhasedPauli.Below (min (min x.bitLen z.bitLen) (min otherX.bitLen
          otherZ.bitLen)) (toPhased ⟨.aligned otherX, .aligned otherZ, f⟩) := h
      refine ⟨?_, ?_, ?_⟩
      · cases right <;> exact ⟨fun h => (nomatch h), fun h => (nomatch h)⟩
      · rintro n ⟨rfl⟩
        exact hbelow.1.mono (by omega)
      · rintro n ⟨rfl⟩
        exact hbelow.2.mono (by omega)

theorem fits_of_mulAssignAlignedBits_eq_none (h : mulAssignAlignedBits right p other = none) :
    Fits right p.capacity other.capacity p.toPhased other.toPhased ↔
      FitsGeneric right p.capacity other.capacity p.toPhased other.toPhased := by
  obtain ⟨px, pz, e⟩ := p
  obtain ⟨ox, oz, f⟩ := other
  cases px with
  | indexSet _ => exact Iff.rfl
  | aligned x =>
    cases ox with
    | indexSet _ =>
      obtain ⟨z⟩ := pz
      exact Iff.rfl
    | aligned otherX =>
      obtain ⟨z⟩ := pz
      obtain ⟨otherZ⟩ := oz
      cases h

/-- An operation returns a Pauli that denotes an operator. -/
def Returns (result : Option (StoredPauli k)) (target : PhasedPauli) : Prop :=
  ∃ r, result = some r ∧ r.toPhased = target

theorem returns_mulAssignGeneric_iff :
    Returns (mulAssignGeneric right p other) (sideMul right p.toPhased other.toPhased) ↔
      FitsGeneric right p.capacity other.capacity p.toPhased other.toPhased := by
  rw [← addAssignBits_exact_iff]
  unfold Returns mulAssignGeneric
  constructor
  · rintro ⟨r, hr, hexact⟩
    obtain ⟨product, hproduct, rfl⟩ := map_eq_some_iff.mp hr
    exact ⟨product, hproduct, hexact⟩
  · rintro ⟨product, hproduct, hexact⟩
    exact ⟨_, by rw [hproduct, map_some], hexact⟩

theorem returns_mulAssign_iff :
    Returns (mulAssign right p other) (sideMul right p.toPhased other.toPhased) ↔
      Fits right p.capacity other.capacity p.toPhased other.toPhased := by
  unfold mulAssign
  cases haligned : mulAssignAlignedBits right p other with
  | none =>
    rw [fits_of_mulAssignAlignedBits_eq_none right p other haligned]
    exact returns_mulAssignGeneric_iff right p other
  | some product =>
    rw [← mulAssignAlignedBits_exact_iff right p other haligned, some_or, map_some]
    exact ⟨fun ⟨_, hr, hexact⟩ => some_inj.mp hr ▸ hexact, fun h => ⟨_, rfl, h⟩⟩

theorem capacity_mulAssign {r : StoredPauli k} (h : mulAssign right p other = some r) :
    r.capacity = p.capacity := by
  obtain ⟨product, hproduct, rfl⟩ := map_eq_some_iff.mp h
  cases haligned : mulAssignAlignedBits right p other with
  | none =>
    rw [haligned, none_or] at hproduct
    obtain ⟨_, _, hproduct⟩ := bind_eq_some_iff.mp hproduct
    obtain ⟨x, hx, hproduct⟩ := bind_eq_some_iff.mp hproduct
    obtain ⟨z, hz, hproduct⟩ := bind_eq_some_iff.mp hproduct
    obtain rfl := some_inj.mp hproduct
    unfold capacity
    rw [PauliCapacity.mk.injEq]
    exact ⟨PauliBits.capacity_bitxorAssign hx, PauliBits.capacity_bitxorAssign hz⟩
  | some aligned =>
    rw [haligned, some_or] at hproduct
    obtain rfl := some_inj.mp hproduct
    obtain ⟨px, pz, e⟩ := p
    obtain ⟨ox, oz, f⟩ := other
    cases px with
    | indexSet _ => cases haligned
    | aligned x =>
      cases ox with
      | indexSet _ =>
        cases pz
        cases haligned
      | aligned otherX =>
        obtain ⟨z⟩ := pz
        obtain ⟨otherZ⟩ := oz
        obtain rfl := some_inj.mp haligned
        have hlength :=
          length_mulAssignWords right x.words z.words otherX.words otherZ.words 0
        simpa [capacity, withProduct, PauliBits.capacity, AlignedBitVec.bitLen] using hlength

end Product

section Predicates

variable (p : StoredPauli k)

theorem yParity_eq : p.yParity = some p.toPauliUnitary.yParity := by
  refine (PauliBits.dot_eq_some_iff p.xBits p.zBits).mpr ?_
  obtain ⟨x, z, e⟩ := p
  cases x with
  | aligned x =>
    obtain ⟨z⟩ := z
    exact ⟨fun h => (nomatch h), fun h => (nomatch h)⟩
  | indexSet x =>
    obtain ⟨z⟩ := z
    exact ⟨fun _ n h => (nomatch h), fun _ n h => (nomatch h)⟩

theorem isOrderTwo_eq : p.isOrderTwo = some p.toPauliUnitary.isOrderTwo := by
  rw [isOrderTwo, yParity_eq]
  rfl

theorem invert_spec :
    ∃ r, p.invert = some r ∧ r.toPhased = p.toPhased⁻¹ ∧ r.capacity = p.capacity := by
  have hparity : p.complexConjugate.yParity = some p.toPauliUnitary.yParity := p.yParity_eq
  refine ⟨_, by rw [invert, hparity]; rfl, ?_, ?_⟩
  · have hphase : (if p.toPauliUnitary.yParity then p.complexConjugate.negate
        else p.complexConjugate).toPhased.phase = p.toPhased⁻¹.phase := by
      rw [inv_phase]
      change _ = -phaseResidue p.xzPhaseExp +
        twist (Bits.dot p.zBits.toBits p.xBits.toBits)
      rw [Bits.dot_comm]
      change _ = _ + twist p.toPauliUnitary.yParity
      cases p.toPauliUnitary.yParity with
      | false => simp [complexConjugate, toPhased, toPauliUnitary]
      | true =>
        simp [complexConjugate, negate, toPhased, toPauliUnitary]
        rfl
    refine PhasedPauli.ext hphase ?_ ?_ <;> split_ifs <;> rfl
  · split_ifs <;> rfl

end Predicates

section PauliGroup

variable {m : BitsKind} (p : StoredPauli k) (q : StoredPauli l) (r : StoredPauli m)

/-- The operations on stored Paulis implement the phased Pauli group on three operands: both sides
and both paths of a product, both bracketings, the predicates and the inverse. -/
structure ImplementsPauliGroup : Prop where
  mulAssignRight : Returns (p.mulAssignRight q) (p.toPhased * q.toPhased)
  mulAssignLeft : Returns (p.mulAssignLeft q) (q.toPhased * p.toPhased)
  generic_right : Returns (mulAssignGeneric true p q) (p.toPhased * q.toPhased)
  generic_left : Returns (mulAssignGeneric false p q) (q.toPhased * p.toPhased)
  associative :
    ∃ pq qr s t, p.mulAssignRight q = some pq ∧ pq.mulAssignRight r = some s ∧
      q.mulAssignRight r = some qr ∧ p.mulAssignRight qr = some t ∧
        qr.toPhased = q.toPhased * r.toPhased ∧
          s.toPhased = p.toPhased * q.toPhased * r.toPhased ∧ t.toPhased = s.toPhased
  antiCommutesWith :
    ∃ b, p.antiCommutesWith q = some b ∧
      (b = true ↔ p.toPhased * q.toPhased = iPow 2 * (q.toPhased * p.toPhased))
  isOrderTwo : ∃ b, p.isOrderTwo = some b ∧ (b = true ↔ p.toPhased * p.toPhased = 1)
  invert :
    ∃ s, p.invert = some s ∧ Returns (p.mulAssignRight s) 1 ∧ Returns (s.mulAssignRight p) 1

/-- The storages suit every product that is taken. -/
structure Suits : Prop where
  right : Fits true p.capacity q.capacity p.toPhased q.toPhased
  left : Fits false p.capacity q.capacity p.toPhased q.toPhased
  right_third : Fits true q.capacity r.capacity q.toPhased r.toPhased
  product_third : Fits true p.capacity r.capacity (p.toPhased * q.toPhased) r.toPhased
  first_product : Fits true p.capacity q.capacity p.toPhased (q.toPhased * r.toPhased)
  self : Fits true p.capacity p.capacity p.toPhased p.toPhased

theorem fits_congr {right : Bool} {s t : PauliCapacity} {a b a' b' : PhasedPauli}
    (hax : a.xBits = a'.xBits) (haz : a.zBits = a'.zBits) (hbx : b.xBits = b'.xBits)
    (hbz : b.zBits = b'.zBits) : Fits right s t a b ↔ Fits right s t a' b' := by
  unfold Fits FitsGeneric PhasedPauli.Below
  rw [hax, haz, hbx, hbz]

variable {p q r}

theorem antiCommutesWith_of_fits
    (hright : FitsGeneric true p.capacity q.capacity p.toPhased q.toPhased)
    (hleft : FitsGeneric false p.capacity q.capacity p.toPhased q.toPhased) :
    p.antiCommutesWith q = some (anti p.toPhased q.toPhased) := by
  have hxz := (PauliBits.dot_eq_some_iff p.xBits q.zBits).mpr hleft.1
  have hzx := (PauliBits.dot_eq_some_iff p.zBits q.xBits).mpr hright.1
  unfold antiCommutesWith
  rw [hxz, hzx]
  rfl

theorem anti_eq_true_iff {a b : PhasedPauli} : anti a b = true ↔ a * b = iPow 2 * (b * a) := by
  refine ⟨mul_comm_of_anti, fun h => anti_eq_of_mul_eq ?_⟩
  rw [h, twist_true]

theorem associative_iff (hright : Fits true p.capacity q.capacity p.toPhased q.toPhased) :
    (∃ pq qr s t, p.mulAssignRight q = some pq ∧ pq.mulAssignRight r = some s ∧
        q.mulAssignRight r = some qr ∧ p.mulAssignRight qr = some t ∧
          qr.toPhased = q.toPhased * r.toPhased ∧
            s.toPhased = p.toPhased * q.toPhased * r.toPhased ∧ t.toPhased = s.toPhased) ↔
      Fits true q.capacity r.capacity q.toPhased r.toPhased ∧
        Fits true p.capacity r.capacity (p.toPhased * q.toPhased) r.toPhased ∧
          Fits true p.capacity q.capacity p.toPhased (q.toPhased * r.toPhased) := by
  obtain ⟨pq, hpq, hpqExact⟩ := (returns_mulAssign_iff true p q).mpr hright
  have hpqCapacity := capacity_mulAssign true p q hpq
  have hpqr := returns_mulAssign_iff true pq r
  rw [hpqExact, hpqCapacity] at hpqr
  constructor
  · rintro ⟨pq', qr, s, t, hpq', hs, hqr, ht, hqrExact, hsExact, htExact⟩
    obtain rfl := some_inj.mp (hpq.symm.trans hpq')
    have hpqrt := returns_mulAssign_iff true p qr
    rw [hqrExact, capacity_mulAssign true q r hqr] at hpqrt
    refine ⟨(returns_mulAssign_iff true q r).mp ⟨qr, hqr, hqrExact⟩, hpqr.mp ⟨s, hs, hsExact⟩,
      hpqrt.mp ⟨t, ht, ?_⟩⟩
    rw [htExact, hsExact]
    exact mul_assoc _ _ _
  · rintro ⟨hthird, hproduct, hfirst⟩
    obtain ⟨qr, hqr, hqrExact⟩ := (returns_mulAssign_iff true q r).mpr hthird
    obtain ⟨s, hs, hsExact⟩ := hpqr.mpr hproduct
    have hpqrt := returns_mulAssign_iff true p qr
    rw [hqrExact, capacity_mulAssign true q r hqr] at hpqrt
    obtain ⟨t, ht, htExact⟩ := hpqrt.mpr hfirst
    refine ⟨pq, qr, s, t, hpq, hs, hqr, ht, hqrExact, hsExact, ?_⟩
    rw [htExact, hsExact]
    exact (mul_assoc _ _ _).symm

theorem invert_iff :
    (∃ s, p.invert = some s ∧ Returns (p.mulAssignRight s) 1 ∧ Returns (s.mulAssignRight p) 1) ↔
      Fits true p.capacity p.capacity p.toPhased p.toPhased := by
  obtain ⟨s, hs, hexact, hcapacity⟩ := p.invert_spec
  have hright := returns_mulAssign_iff true p s
  have hleft := returns_mulAssign_iff true s p
  rw [hexact, hcapacity, fits_congr rfl rfl (inv_xBits _) (inv_zBits _)] at hright
  rw [hexact, hcapacity, fits_congr (inv_xBits _) (inv_zBits _) rfl rfl] at hleft
  rw [sideMul, if_pos rfl, mul_inv_cancel] at hright
  rw [sideMul, if_pos rfl, inv_mul_cancel] at hleft
  constructor
  · rintro ⟨s', hs', hreturns, _⟩
    obtain rfl := some_inj.mp (hs.symm.trans hs')
    exact hright.mp hreturns
  · intro h
    exact ⟨s, hs, hright.mpr h, hleft.mpr h⟩

variable (p q r)

/-- Stored Paulis implement the phased Pauli group exactly when their storages suit every
product that is taken: aligned words must hold what is multiplied into them, and index sets must
lie within the aligned words that they are paired with. -/
theorem implementsPauliGroup_iff : ImplementsPauliGroup p q r ↔ Suits p q r := by
  constructor
  · intro h
    have hright := (returns_mulAssign_iff true p q).mp h.mulAssignRight
    have hassociative := (associative_iff hright).mp h.associative
    exact {
      right := hright
      left := (returns_mulAssign_iff false p q).mp h.mulAssignLeft
      right_third := hassociative.1
      product_third := hassociative.2.1
      first_product := hassociative.2.2
      self := invert_iff.mp h.invert }
  · intro h
    exact {
      mulAssignRight := (returns_mulAssign_iff true p q).mpr h.right
      mulAssignLeft := (returns_mulAssign_iff false p q).mpr h.left
      generic_right := (returns_mulAssignGeneric_iff true p q).mpr h.right.generic
      generic_left := (returns_mulAssignGeneric_iff false p q).mpr h.left.generic
      associative :=
        (associative_iff h.right).mpr ⟨h.right_third, h.product_third, h.first_product⟩
      antiCommutesWith :=
        ⟨_, antiCommutesWith_of_fits h.right.generic h.left.generic, anti_eq_true_iff⟩
      isOrderTwo := ⟨_, p.isOrderTwo_eq, isOrderTwo_iff⟩
      invert := invert_iff.mpr h.self }

end PauliGroup

def oneBlock (word : Word) : AlignedBitVec :=
  ⟨word :: List.replicate 7 0, ⟨1, rfl⟩⟩

def secondBlock (word : Word) : AlignedBitVec :=
  ⟨List.replicate 8 0 ++ word :: List.replicate 7 0, ⟨2, rfl⟩⟩

/-- The pass over aligned words drops the bits that one operand has no words for: the product of
the one-block Pauli `X_0` by the two-block Pauli `Z_512` is `X_0`. -/
theorem not_implementsPauliGroup :
    ¬ ∀ (k l m : BitsKind) (p : StoredPauli k) (q : StoredPauli l) (r : StoredPauli m),
      ImplementsPauliGroup p q r := by
  intro h
  let x : StoredPauli .aligned := ⟨.aligned (oneBlock 1), .aligned (oneBlock 0), 0⟩
  let z : StoredPauli .aligned := ⟨.aligned (secondBlock 0), .aligned (secondBlock 1), 0⟩
  have hproduct : ∃ r, x.mulAssignRight z = some r ∧ r.zBits.toBits = 0 :=
    ⟨_, rfl, by decide⟩
  obtain ⟨r, hr, hzero⟩ := hproduct
  obtain ⟨r', hr', hexact⟩ := (h _ _ _ x z x).mulAssignRight
  obtain rfl := some_inj.mp (hr.symm.trans hr')
  have hbits : r.zBits.toBits = x.zBits.toBits + z.zBits.toBits :=
    congrArg PhasedPauli.zBits hexact
  rw [hzero] at hbits
  revert hbits
  decide

end StoredPauli

end QdkEc
