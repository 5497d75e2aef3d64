import QdkEc.Binar.AlignedBitMatrix
import QdkEc.Paulimer.PauliUnitary

/-!
# Sparse Paulis from positioned observables

This module models the conversion of a list of positioned single-qubit Pauli
observables into a sparse Pauli.  The loop adds up the phase in an unreduced
`u8`; a build with overflow checks panics where a sum leaves the `u8` range.
-/

namespace QdkEc

open PhasedPauli List

/-- The Hermitian Pauli operators on one qubit. -/
inductive PauliObservable where
  | PlusI
  | PlusX
  | PlusY
  | PlusZ
  | MinusI
  | MinusX
  | MinusY
  | MinusZ
deriving DecidableEq

namespace PauliObservable

/-- The discriminant of an observable, by which observables are ordered. -/
def discriminant : PauliObservable → ℕ
  | PlusI => 0b000
  | PlusX => 0b001
  | PlusY => 0b011
  | PlusZ => 0b010
  | MinusI => 0b100
  | MinusX => 0b101
  | MinusY => 0b111
  | MinusZ => 0b110

/-- The operator that an observable stands for on one qubit, with `Y = iXZ`. -/
def operator (qubitId : ℕ) :
    PauliObservable → PhasedPauli
  | PlusI => 1
  | PlusX => X qubitId
  | PlusY => iPow 1 * (X qubitId * Z qubitId)
  | PlusZ => Z qubitId
  | MinusI => iPow 2
  | MinusX => iPow 2 * X qubitId
  | MinusY => iPow 2 * (iPow 1 * (X qubitId * Z qubitId))
  | MinusZ => iPow 2 * Z qubitId

/-- The exponent of `i` in front of `X^x Z^z`. -/
def exponent : PauliObservable → UInt8
  | PlusI | PlusX | PlusZ => 0
  | PlusY => 1
  | MinusI | MinusX | MinusZ => 2
  | MinusY => 3

end PauliObservable

/-- A Pauli observable on one of many qubits. -/
structure PositionedPauliObservable where
  qubitId : ℕ
  observable : PauliObservable
deriving DecidableEq

namespace PositionedPauliObservable

/-- The derived order: by position, then by observable. -/
def le (a b : PositionedPauliObservable) : Prop :=
  a.qubitId < b.qubitId ∨
    a.qubitId = b.qubitId ∧ a.observable.discriminant ≤ b.observable.discriminant

instance : DecidableRel le :=
  fun _ _ => inferInstanceAs (Decidable (_ ∨ _))

instance : Std.Total le :=
  ⟨fun a b => by
    unfold le
    omega⟩

instance : IsTrans PositionedPauliObservable le :=
  ⟨fun a b c => by
    unfold le
    omega⟩

def operator (o : PositionedPauliObservable) : PhasedPauli :=
  o.observable.operator o.qubitId

/-- The exponents that the loop adds up, as exact numbers. -/
def exponentTotal (observables : List PositionedPauliObservable) : ℕ :=
  (observables.map fun o => o.observable.exponent.toNat).sum

@[simp]
theorem exponentTotal_cons (o : PositionedPauliObservable) (l : List PositionedPauliObservable) :
    exponentTotal (o :: l) = o.observable.exponent.toNat + exponentTotal l :=
  rfl

theorem exponentTotal_perm {l l' : List PositionedPauliObservable} (h : l.Perm l') :
    exponentTotal l = exponentTotal l' :=
  (h.map _).sum_eq

end PositionedPauliObservable

namespace PauliUnitary

open PositionedPauliObservable

/-- Put an `X` on one qubit of the accumulator. -/
def assignX (acc : PauliUnitary) (qubitId : ℕ) : PauliUnitary :=
  { acc with xBits := AlignedBitMatrix.assignIndex acc.xBits qubitId true }

/-- Put a `Z` on one qubit of the accumulator. -/
def assignZ (acc : PauliUnitary) (qubitId : ℕ) : PauliUnitary :=
  { acc with zBits := AlignedBitMatrix.assignIndex acc.zBits qubitId true }

/-- `phase += value` on a `u8`; `none` is the overflow panic of a build that checks for it. -/
def addPhase (overflowChecks : Bool) (acc : PauliUnitary) (value : UInt8) : Option PauliUnitary :=
  if overflowChecks ∧ 256 ≤ acc.xzPhaseExp.toNat + value.toNat then none
  else some (acc.addAssignPhaseExp value)

/-- One pass of the loop over the sorted observables. -/
def assignObservable (overflowChecks : Bool) (acc : PauliUnitary) (o : PositionedPauliObservable) :
    Option PauliUnitary :=
  match o.observable with
  | .PlusI => some acc
  | .MinusI => acc.addPhase overflowChecks 2
  | .PlusX => some (acc.assignX o.qubitId)
  | .PlusZ => some (acc.assignZ o.qubitId)
  | .MinusX => (acc.assignX o.qubitId).addPhase overflowChecks 2
  | .MinusZ => (acc.assignZ o.qubitId).addPhase overflowChecks 2
  | .PlusY => ((acc.assignX o.qubitId).assignZ o.qubitId).addPhase overflowChecks 1
  | .MinusY => ((acc.assignX o.qubitId).assignZ o.qubitId).addPhase overflowChecks 3

/-- The sparse Pauli of a list of positioned observables; `none` is a panic, of the assertion
against repeated qubit positions or of an overflow check. -/
def fromPositioned (overflowChecks : Bool) (pauliObservable : List PositionedPauliObservable) :
    Option PauliUnitary :=
  let obsCopy := pauliObservable.insertionSort le
  if (obsCopy.map qubitId).IsChain (· < ·) then
    obsCopy.foldlM (assignObservable overflowChecks) neutralElement
  else none

variable {acc : PauliUnitary} {overflowChecks : Bool}

theorem addPhase_eq_some {value : UInt8}
    (hfits : overflowChecks = true → acc.xzPhaseExp.toNat + value.toNat ≤ 255) :
    acc.addPhase overflowChecks value = some (acc.addAssignPhaseExp value) := by
  have hsum : ¬ (overflowChecks = true ∧ 256 ≤ acc.xzPhaseExp.toNat + value.toNat) := by
    rintro ⟨hchecks, hsum⟩
    have := hfits hchecks
    omega
  exact if_neg hsum

/-- Nothing of the accumulator acts on a qubit. -/
def FreeAt (acc : PauliUnitary) (qubitId : ℕ) : Prop :=
  acc.xBits.index qubitId = false ∧ acc.zBits.index qubitId = false

theorem assignIndex_of_free {b : Bits} {i : ℕ} (hb : b.index i = false) :
    AlignedBitMatrix.assignIndex b i true = b + Bits.unit i := by
  refine Bits.ext_index fun j => ?_
  by_cases hij : i = j
  · subst hij
    simp [hb]
  · simp [hij]

theorem toPhased_assignX {i : ℕ} (hacc : acc.FreeAt i) :
    (acc.assignX i).toPhased = acc.toPhased * X i := by
  ext1
  · simp [assignX, hacc.2]
  · exact assignIndex_of_free hacc.1
  · simp [assignX]

theorem toPhased_assignZ {i : ℕ} (hacc : acc.zBits.index i = false) :
    (acc.assignZ i).toPhased = acc.toPhased * Z i := by
  ext1
  · simp [assignZ]
  · simp [assignZ]
  · exact assignIndex_of_free hacc

/-- The accumulator after one pass, the exponent not yet added. -/
def assignBits (acc : PauliUnitary) (o : PositionedPauliObservable) : PauliUnitary :=
  match o.observable with
  | .PlusI | .MinusI => acc
  | .PlusX | .MinusX => acc.assignX o.qubitId
  | .PlusZ | .MinusZ => acc.assignZ o.qubitId
  | .PlusY | .MinusY => (acc.assignX o.qubitId).assignZ o.qubitId

theorem assignBits_xzPhaseExp (acc : PauliUnitary) (o : PositionedPauliObservable) :
    (acc.assignBits o).xzPhaseExp = acc.xzPhaseExp := by
  unfold assignBits
  split <;> rfl

variable {o : PositionedPauliObservable}

theorem assignObservable_eq (hfits : overflowChecks = true →
      acc.xzPhaseExp.toNat + o.observable.exponent.toNat ≤ 255) :
    acc.assignObservable overflowChecks o =
      some ((acc.assignBits o).addAssignPhaseExp o.observable.exponent) := by
  rw [← assignBits_xzPhaseExp acc o] at hfits
  rw [← addPhase_eq_some hfits]
  have hzero (p : PauliUnitary) (hp : overflowChecks = true → p.xzPhaseExp.toNat + 0 ≤ 255) :
      some p = p.addPhase overflowChecks 0 := by
    rw [addPhase_eq_some hp, addAssignPhaseExp, UInt8.add_zero]
  obtain ⟨qubitId, observable⟩ := o
  cases observable with
  | PlusI | PlusX | PlusZ => exact hzero _ hfits
  | PlusY | MinusI | MinusX | MinusY | MinusZ => rfl

theorem toPhased_assignObservable (hacc : acc.FreeAt o.qubitId) :
    ((acc.assignBits o).addAssignPhaseExp o.observable.exponent).toPhased =
      acc.toPhased * o.operator := by
  have hy : ((acc.assignX o.qubitId).assignZ o.qubitId).toPhased =
      acc.toPhased * (X o.qubitId * Z o.qubitId) := by
    have hz : (acc.assignX o.qubitId).zBits.index o.qubitId = false := hacc.2
    rw [toPhased_assignZ hz, toPhased_assignX hacc, mul_assoc]
  rw [toPhased_addAssignPhaseExp]
  obtain ⟨qubitId, observable⟩ := o
  cases observable with
  | PlusI => exact (one_mul _).trans (mul_one _).symm
  | PlusX => exact (one_mul _).trans (toPhased_assignX hacc)
  | PlusY =>
    rw [PositionedPauliObservable.operator, PauliObservable.operator, mul_iPow_mul, ← hy]
    rfl
  | PlusZ => exact (one_mul _).trans (toPhased_assignZ hacc.2)
  | MinusI => exact iPow_mul_comm _ _
  | MinusX =>
    rw [PositionedPauliObservable.operator, PauliObservable.operator, mul_iPow_mul,
      ← toPhased_assignX hacc]
    rfl
  | MinusY =>
    rw [PositionedPauliObservable.operator, PauliObservable.operator, mul_iPow_mul,
      mul_iPow_mul, ← hy, ← mul_assoc, ← iPow_add]
    rfl
  | MinusZ =>
    rw [PositionedPauliObservable.operator, PauliObservable.operator, mul_iPow_mul,
      ← toPhased_assignZ hacc.2]
    rfl

theorem FreeAt.assignObservable {i : ℕ} (hacc : acc.FreeAt i) (hi : o.qubitId ≠ i) (value : UInt8) :
    ((acc.assignBits o).addAssignPhaseExp value).FreeAt i := by
  have hx (p : PauliUnitary) (hp : p.FreeAt i) : (p.assignX o.qubitId).FreeAt i :=
    ⟨by simp [assignX, hi, hp.1], hp.2⟩
  have hz (p : PauliUnitary) (hp : p.FreeAt i) : (p.assignZ o.qubitId).FreeAt i :=
    ⟨hp.1, by simp [assignZ, hi, hp.2]⟩
  unfold assignBits
  split
  · exact hacc
  · exact hacc
  · exact hx _ hacc
  · exact hx _ hacc
  · exact hz _ hacc
  · exact hz _ hacc
  · exact hz _ (hx _ hacc)
  · exact hz _ (hx _ hacc)

variable {l : List PositionedPauliObservable}

theorem foldlM_assignObservable
    (hnodup : (l.map qubitId).Nodup) (acc : PauliUnitary) (hfree : ∀ o ∈ l, acc.FreeAt o.qubitId)
    (hfits : overflowChecks = true → acc.xzPhaseExp.toNat + exponentTotal l ≤ 255) :
    ∃ p, l.foldlM (assignObservable overflowChecks) acc = some p ∧
      p.toPhased = acc.toPhased * (l.map operator).prod := by
  induction l generalizing acc with
  | nil => exact ⟨acc, rfl, (mul_one _).symm⟩
  | cons o l ih =>
    rw [map_cons, nodup_cons] at hnodup
    have hhead : overflowChecks = true →
        acc.xzPhaseExp.toNat + o.observable.exponent.toNat ≤ 255 := by
      intro hchecks
      have := hfits hchecks
      rw [exponentTotal_cons] at this
      omega
    let next := (acc.assignBits o).addAssignPhaseExp o.observable.exponent
    have hexponent : next.xzPhaseExp = acc.xzPhaseExp + o.observable.exponent := by
      rw [← assignBits_xzPhaseExp acc o]
      rfl
    have hrest : ∀ o' ∈ l, next.FreeAt o'.qubitId := by
      intro o' ho'
      refine (hfree o' (mem_cons_of_mem o ho')).assignObservable ?_ _
      intro heq
      exact hnodup.1 (heq ▸ mem_map_of_mem ho')
    have htail : overflowChecks = true → next.xzPhaseExp.toNat + exponentTotal l ≤ 255 := by
      intro hchecks
      have htotal := hfits hchecks
      rw [exponentTotal_cons] at htotal
      rw [hexponent, UInt8.toNat_add]
      omega
    obtain ⟨p, hp, hphased⟩ := ih hnodup.2 next hrest htail
    refine ⟨p, ?_, ?_⟩
    · rw [foldlM_cons, assignObservable_eq hhead]
      exact hp
    · rw [hphased, toPhased_assignObservable (hfree o mem_cons_self), map_cons,
        prod_cons, mul_assoc]

theorem foldlM_assignObservable_eq_none (acc : PauliUnitary)
    (hoverflow : 256 ≤ acc.xzPhaseExp.toNat + exponentTotal l) :
    l.foldlM (assignObservable true) acc = none := by
  induction l generalizing acc with
  | nil =>
    have := acc.xzPhaseExp.toNat_lt
    have htotal : exponentTotal [] = 0 := rfl
    omega
  | cons o l ih =>
    rw [exponentTotal_cons] at hoverflow
    rw [foldlM_cons]
    by_cases hfits : acc.xzPhaseExp.toNat + o.observable.exponent.toNat ≤ 255
    · rw [assignObservable_eq fun _ => hfits]
      refine ih _ ?_
      change 256 ≤ ((acc.assignBits o).xzPhaseExp + o.observable.exponent).toNat + _
      rw [assignBits_xzPhaseExp, UInt8.toNat_add, Nat.mod_eq_of_lt (by omega)]
      omega
    · have hpanic : acc.assignObservable true o = none := by
        rw [← assignBits_xzPhaseExp acc o] at hfits
        have hsum : (true = true) ∧
            256 ≤ (acc.assignBits o).xzPhaseExp.toNat + o.observable.exponent.toNat :=
          ⟨rfl, by omega⟩
        have hlt := (acc.assignBits o).xzPhaseExp.toNat_lt
        obtain ⟨qubitId, observable⟩ := o
        cases observable with
        | PlusI | PlusX | PlusZ => exact absurd hfits (not_not.mpr (Nat.le_of_lt_succ hlt))
        | PlusY | MinusI | MinusX | MinusY | MinusZ => exact if_pos hsum
      rw [hpanic]
      rfl

theorem operator_commute {o o' : PositionedPauliObservable} (h : o.qubitId ≠ o'.qubitId) :
    Commute o.operator o'.operator := by
  have hbits (i j : ℕ) (hij : i ≠ j) (a b : PauliObservable) :
      anti (a.operator i) (b.operator j) = false := by
    cases a <;> cases b <;> simp [PauliObservable.operator, anti, hij]
  exact mul_comm_of_not_anti (hbits _ _ h _ _)

theorem isChain_insertionSort_iff (l : List PositionedPauliObservable) :
    ((l.insertionSort le).map qubitId).IsChain (· < ·) ↔ (l.map qubitId).Nodup := by
  have hperm : ((l.insertionSort le).map qubitId).Perm (l.map qubitId) :=
    (perm_insertionSort le l).map _
  have hsorted : ((l.insertionSort le).map qubitId).Pairwise (· ≤ ·) := by
    refine pairwise_map.mpr ((pairwise_insertionSort le l).imp fun h => ?_)
    exact h.elim le_of_lt fun heq => heq.1.le
  rw [isChain_iff_pairwise, ← hperm.nodup_iff]
  constructor
  · intro h
    exact h.imp fun hlt => hlt.ne
  · intro h
    exact (hsorted.and h).imp fun hle => lt_of_le_of_ne hle.1 hle.2

/-- On distinct positions the conversion is the product of the observables, whatever their order,
as long as the exponents stay in the range of a checked `u8`; repeated positions are refused. -/
theorem fromPositioned_spec (overflowChecks : Bool) (l : List PositionedPauliObservable) :
    ((l.map qubitId).Nodup → (overflowChecks = true → exponentTotal l ≤ 255) →
        ∃ p, fromPositioned overflowChecks l = some p ∧ p.toPhased = (l.map operator).prod) ∧
      (¬ (l.map qubitId).Nodup → fromPositioned overflowChecks l = none) := by
  unfold fromPositioned
  simp only [isChain_insertionSort_iff]
  constructor
  · intro hnodup hfits
    have hperm := perm_insertionSort le l
    rw [if_pos hnodup]
    have hsortedNodup : ((l.insertionSort le).map qubitId).Nodup :=
      (hperm.map _).nodup_iff.mpr hnodup
    obtain ⟨p, hp, hphased⟩ := foldlM_assignObservable hsortedNodup neutralElement
      (fun o _ => ⟨Bits.index_zero _, Bits.index_zero _⟩)
      (fun hchecks => by
        rw [exponentTotal_perm hperm]
        exact (Nat.zero_add _).le.trans (hfits hchecks))
    refine ⟨p, hp, ?_⟩
    rw [hphased, toPhased_neutralElement, one_mul]
    refine List.Perm.prod_eq' (hperm.map _) ?_
    exact pairwise_map.mpr ((pairwise_map.mp hsortedNodup).imp operator_commute)
  · intro hrepeated
    exact if_neg hrepeated

/-- An unsorted list of mixed observables, one of them `-Y`. -/
theorem fromPositioned_spec_mixed :
    ∃ p, fromPositioned true [⟨5, .MinusY⟩, ⟨2, .PlusZ⟩, ⟨9, .MinusX⟩, ⟨0, .PlusY⟩] = some p ∧
      p.toPhased = ([⟨5, .MinusY⟩, ⟨2, .PlusZ⟩, ⟨9, .MinusX⟩, ⟨0, .PlusY⟩].map operator).prod :=
  (fromPositioned_spec true [⟨5, .MinusY⟩, ⟨2, .PlusZ⟩, ⟨9, .MinusX⟩, ⟨0, .PlusY⟩]).1
    (by decide) (fun _ => by decide)

/-- `X` and `Z` on one qubit have a product, and the conversion refuses them. -/
theorem not_fromPositioned_total :
    ¬ ∀ overflowChecks l, ∃ p, fromPositioned overflowChecks l = some p ∧
      p.toPhased = (l.map operator).prod := by
  intro h
  obtain ⟨p, hp, -⟩ := h false [⟨0, .PlusX⟩, ⟨0, .PlusZ⟩]
  have hnone : fromPositioned false [⟨0, .PlusX⟩, ⟨0, .PlusZ⟩] = none := by decide
  cases hp

/-- The conversion panics exactly on repeated positions and, where a build checks for overflow, on
exponents whose sum does not fit into a `u8`. -/
theorem fromPositioned_eq_none_iff (overflowChecks : Bool) (l : List PositionedPauliObservable) :
    fromPositioned overflowChecks l = none ↔
      ¬ (l.map qubitId).Nodup ∨ overflowChecks = true ∧ 256 ≤ exponentTotal l := by
  have hperm := perm_insertionSort le l
  rw [fromPositioned, ← (hperm.map qubitId).nodup_iff, ← exponentTotal_perm hperm]
  simp only [isChain_insertionSort_iff, ← (hperm.map qubitId).nodup_iff]
  split_ifs with hnodup
  · rw [or_iff_right (not_not.mpr hnodup)]
    constructor
    · intro hnone
      by_contra hfits
      obtain ⟨p, hp, -⟩ := foldlM_assignObservable hnodup neutralElement
        (fun o _ => ⟨Bits.index_zero _, Bits.index_zero _⟩) fun hchecks => by
          have := not_and.mp hfits hchecks
          exact (Nat.zero_add _).le.trans (by omega)
      exact Option.some_ne_none p (hp.symm.trans hnone)
    · rintro ⟨rfl, hoverflow⟩
      exact foldlM_assignObservable_eq_none _ (hoverflow.trans (Nat.le_add_left _ _))
  · exact iff_of_true rfl (Or.inl hnodup)

end PauliUnitary

end QdkEc
