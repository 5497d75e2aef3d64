import QdkEc.Paulimer.CliffordLift

/-!
# Growing and shrinking Clifford unitaries

This module characterises `resize` by the frame of a tableau.  A resize succeeds
exactly when the frame fixes every generator from the new qubit count on, and it
never changes the frame.
-/

namespace QdkEc

open PhasedPauli CliffordUnitary PauliUnitary PauliUnitaryProjective

variable {k : ℕ}

namespace CliffordUnitary

variable {C : CliffordUnitary}

theorem shrinkable_iff_fixesFrom : ((List.range' k (C.numQubits - k)).all fun q =>
        (C.preimageXView q).isPauliX q && (C.preimageZView q).isPauliZ q) = true ↔
      C.frame.FixesFrom k := by
  simp only [List.all_eq_true, List.mem_range'_1, Bool.and_eq_true, isPauliX_iff, isPauliZ_iff]
  constructor
  · intro h q hk
    rcases Nat.lt_or_ge q C.numQubits with hq | hq
    · rw [frame_x hq, frame_z hq]
      exact h q ⟨hk, by omega⟩
    · exact C.fixesFrom_frame q hq
  · intro h q hq
    have hlt : q < C.numQubits := by omega
    rw [← frame_x hlt, ← frame_z hlt]
    exact h q hq.1

theorem fixesFrom_of_resize {C C' : CliffordUnitary} (h : C.resize k = some C') :
    C.frame.FixesFrom k := by
  rcases Nat.lt_or_ge k C.numQubits with hk | hk
  · rw [resize, Nat.compare_eq_gt.mpr hk] at h
    by_contra hfix
    refine absurd h ?_
    simp only [shrinkClifford]
    rw [if_neg fun hall => hfix (shrinkable_iff_fixesFrom.mp hall)]
    simp
  · exact C.fixesFrom_frame.mono hk

theorem exists_resize (hf : C.frame.Valid) (hfix : C.frame.FixesFrom k) :
    ∃ C', C.resize k = some C' ∧ C'.numQubits = k ∧ C'.frame = C.frame := by
  rcases lt_trichotomy C.numQubits k with hk | hk | hk
  · exact resize_of_lt hf hk
  · refine ⟨C, ?_, hk, rfl⟩
    rw [resize, Nat.compare_eq_eq.mpr hk]
  · refine ⟨(identity k).rewritePreimages (fun q _ => (C.preimageXView q).assigned)
      (fun q _ => (C.preimageZView q).assigned) (List.range k), ?_, ?_, ?_⟩
    · rw [resize, Nat.compare_eq_gt.mpr hk]
      exact if_pos (shrinkable_iff_fixesFrom.mpr hfix)
    · rw [numQubits_rewritePreimages, numQubits_identity]
    · have hframe := frame_rewritePreimages_range (C := identity k)
        (fun q _ => (C.preimageXView q).assigned) (fun q _ => (C.preimageZView q).assigned)
        (f := C.frame)
      rw [numQubits_identity] at hframe
      refine hframe (fun q hq => ?_) (fun q hq => ?_) hfix
      · rw [toPhased_assigned, frame_x (by omega)]
      · rw [toPhased_assigned, frame_z (by omega)]

theorem toPhased_eq_of_frame_eq {C C' : CliffordUnitary} (hf : C.frame.Valid)
    (hframe : C'.frame = C.frame) {p : PauliUnitary} (hp : p.Below C.numQubits)
    (hp' : p.Below C'.numQubits) : (C'.preimage p).toPhased = (C.preimage p).toPhased ∧
      (C'.image p).toPhased = (C.image p).toPhased := by
  constructor
  · rw [toPhased_preimage hp, toPhased_preimage hp', hframe]
  · apply hf.lift_injective
    have himage := lift_image (hframe ▸ hf) hp'
    rw [hframe] at himage
    rw [himage, lift_image hf hp]

theorem toPhased_image_eq_self_iff (hf : C.frame.Valid) {p : PauliUnitary}
    (hp : p.Below C.numQubits) :
    (C.image p).toPhased = p.toPhased ↔ C.frame.lift p.toPhased = p.toPhased := by
  rw [← hf.lift_injective.eq_iff, lift_image hf hp]
  exact eq_comm

/-- A Pauli operation keeps `X` and `Z` on one qubit. -/
def FixesQubit (operation : PauliUnitary → PauliUnitary) (q : ℕ) : Prop :=
  (operation (PauliUnitary.x q)).equalsTo (PauliUnitary.x q) = true ∧
    (operation (PauliUnitary.z q)).equalsTo (PauliUnitary.z q) = true

/-- Two tableaux have equal preimages and images of the Paulis on the first `k` qubits. -/
def AgreesBelow (k : ℕ) (C C' : CliffordUnitary) : Prop :=
  ∀ p : PauliUnitary, p.Below k → (C'.preimage p).equalsTo (C.preimage p) = true ∧
    (C'.image p).equalsTo (C.image p) = true

theorem fixesQubit_image_iff (hf : C.frame.Valid) {q : ℕ} (hq : q < C.numQubits) :
    FixesQubit C.image q ↔ C.frame.x q = X q ∧ C.frame.z q = Z q := by
  have hx : (PauliUnitary.x q).Below C.numQubits := below_X.mpr hq
  have hz : (PauliUnitary.z q).Below C.numQubits := below_Z.mpr hq
  unfold FixesQubit
  rw [equalsTo_iff, equalsTo_iff, toPhased_image_eq_self_iff hf hx,
    toPhased_image_eq_self_iff hf hz, toPhased_x, toPhased_z,
    GeneratorFrame.lift_X, GeneratorFrame.lift_Z]

theorem fixesQubit_preimage_iff {q : ℕ} (hq : q < C.numQubits) :
    FixesQubit C.preimage q ↔ C.frame.x q = X q ∧ C.frame.z q = Z q := by
  have hx : (PauliUnitary.x q).Below C.numQubits := below_X.mpr hq
  have hz : (PauliUnitary.z q).Below C.numQubits := below_Z.mpr hq
  unfold FixesQubit
  rw [equalsTo_iff, equalsTo_iff, toPhased_preimage hx,
    toPhased_preimage hz, toPhased_x, toPhased_z,
    GeneratorFrame.lift_X, GeneratorFrame.lift_Z]

theorem fixesFrom_iff_fixesQubit (hf : C.frame.Valid) :
    C.frame.FixesFrom k ↔ ∀ q, k ≤ q → q < C.numQubits → FixesQubit C.image q := by
  constructor
  · intro h q hk hq
    exact (fixesQubit_image_iff hf hq).mpr (h q hk)
  · intro h q hk
    rcases Nat.lt_or_ge q C.numQubits with hq | hq
    · exact (fixesQubit_image_iff hf hq).mp (h q hk hq)
    · exact C.fixesFrom_frame q hq

theorem agreesBelow_of_frame_eq {C C' : CliffordUnitary} (hf : C.frame.Valid)
    (hframe : C'.frame = C.frame) (hk : k ≤ C.numQubits) (hk' : k ≤ C'.numQubits) :
    AgreesBelow k C C' := by
  intro p hp
  rw [equalsTo_iff, equalsTo_iff]
  exact toPhased_eq_of_frame_eq hf hframe (PhasedPauli.Below.mono hp hk)
    (PhasedPauli.Below.mono hp hk')

theorem resize_grow {n m : ℕ} (hC : C.ValidOn n) (hnm : n ≤ m) :
    ∃ C', C.resize m = some C' ∧ C'.ValidOn m ∧ AgreesBelow n C C' ∧
      (∀ q, n ≤ q → q < m → FixesQubit C'.image q ∧ FixesQubit C'.preimage q) ∧
        ∃ C'', C'.resize n = some C'' ∧ C''.numQubits = n ∧ C''.equalsTo C = true := by
  have hf := hC.frame
  have hn := hC.numQubits_eq
  have hfixn : C.frame.FixesFrom n := hn ▸ C.fixesFrom_frame
  obtain ⟨C', hresize, hm, hframe⟩ := exists_resize hf (hfixn.mono hnm)
  have hf' : C'.frame.Valid := hframe ▸ hf
  have hfix' : C'.frame.FixesFrom n := hframe ▸ hfixn
  refine ⟨C', hresize, validOn_iff_frame.mpr ⟨hm, hf'⟩,
    agreesBelow_of_frame_eq hf hframe hn.ge (by omega), fun q hq hqm => ?_, ?_⟩
  · have hq' : q < C'.numQubits := by omega
    exact ⟨(fixesQubit_image_iff hf' hq').mpr (hfix' q hq),
      (fixesQubit_preimage_iff hq').mpr (hfix' q hq)⟩
  · obtain ⟨C'', hback, hn'', hframe''⟩ := exists_resize hf' hfix'
    exact ⟨C'', hback, hn'', equalsTo_of_frame_eq (by omega) (hframe''.trans hframe)⟩

theorem resize_shrink {n k : ℕ} (hC : C.ValidOn n) (hkn : k ≤ n) :
    ((∀ q, k ≤ q → q < n → FixesQubit C.image q) →
        ∃ C', C.resize k = some C' ∧ C'.ValidOn k ∧ AgreesBelow k C C') ∧
      ((¬ ∀ q, k ≤ q → q < n → FixesQubit C.image q) → C.resize k = none) := by
  have hf := hC.frame
  have hn := hC.numQubits_eq
  rw [← hn, ← fixesFrom_iff_fixesQubit hf]
  constructor
  · intro hfix
    obtain ⟨C', hresize, hk, hframe⟩ := exists_resize hf hfix
    exact ⟨C', hresize, validOn_iff_frame.mpr ⟨hk, hframe ▸ hf⟩,
      agreesBelow_of_frame_eq hf hframe (by omega) hk.ge⟩
  · intro hfix
    rw [Option.eq_none_iff_forall_ne_some]
    exact fun C' hresize => hfix (fixesFrom_of_resize hresize)

end CliffordUnitary

namespace CliffordUnitaryModPauli

/-- An operation on Paulis without phases keeps `X` and `Z` on one qubit. -/
def FixesQubit (operation : PauliUnitaryProjective → PauliUnitaryProjective) (q : ℕ) : Prop :=
  operation (PauliUnitaryProjective.x q) = PauliUnitaryProjective.x q ∧
    operation (PauliUnitaryProjective.z q) = PauliUnitaryProjective.z q

/-- Two tableaux have equal preimages and images of the Paulis on the first `k` qubits. -/
def AgreesBelow (k : ℕ) (D D' : CliffordUnitaryModPauli) : Prop :=
  ∀ p : PauliUnitaryProjective, p.Below k →
    D'.preimage p = D.preimage p ∧ D'.image p = D.image p

theorem projective_eq_of_equalsTo {p p' : PauliUnitary} (h : p.equalsTo p' = true) :
    p.projective = p'.projective := by
  obtain ⟨-, hx, hz⟩ := toPhased_injective_iff.mp (equalsTo_iff.mp h)
  exact congrArg₂ PauliUnitaryProjective.mk hx hz

theorem fixesQubit_projective {operation : PauliUnitary → PauliUnitary}
    {operation' : PauliUnitaryProjective → PauliUnitaryProjective}
    (hop : ∀ p : PauliUnitary, (operation p).projective = operation' p.projective) {q : ℕ}
    (h : CliffordUnitary.FixesQubit operation q) : FixesQubit operation' q :=
  ⟨(hop (PauliUnitary.x q)).symm.trans (projective_eq_of_equalsTo h.1),
    (hop (PauliUnitary.z q)).symm.trans (projective_eq_of_equalsTo h.2)⟩

theorem agreesBelow_projective {C C' : CliffordUnitary} (h : CliffordUnitary.AgreesBelow k C C') :
    AgreesBelow k C.projective C'.projective := by
  intro p hp
  obtain ⟨hpreimage, himage⟩ := h p.hermitian hp
  have hpreimage := projective_eq_of_equalsTo hpreimage
  have himage := projective_eq_of_equalsTo himage
  simp only [projective_preimage, projective_image, projective_hermitian] at hpreimage himage
  exact ⟨hpreimage, himage⟩

variable {D : CliffordUnitaryModPauli}

theorem phaseFreeFrom_hermitianLift
    (h : ∀ q, k ≤ q → q < D.numQubits → D.preimageXView q = PauliUnitaryProjective.x q ∧
      D.preimageZView q = PauliUnitaryProjective.z q) : D.hermitianLift.PhaseFreeFrom k := by
  intro q hk hq
  obtain ⟨hx, hz⟩ := D.views_hermitianLift hq
  obtain ⟨hx', hz'⟩ := h q hk hq
  rw [hx, hz, hx', hz', hermitian_x, hermitian_z]
  exact ⟨rfl, rfl⟩

theorem shrinkable_iff : ((List.range' k (D.numQubits - k)).all fun q =>
        (D.preimageXView q).isPauliX q && (D.preimageZView q).isPauliZ q) = true ↔
      ∀ q, k ≤ q → q < D.numQubits → D.preimageXView q = PauliUnitaryProjective.x q ∧
        D.preimageZView q = PauliUnitaryProjective.z q := by
  have hx : ∀ (p : PauliUnitaryProjective) q, p.isPauliX q = true ↔
      p = PauliUnitaryProjective.x q := by
    intro p q
    obtain ⟨xBits, zBits⟩ := p
    simp [PauliUnitaryProjective.isPauliX, PauliUnitaryProjective.x]
  have hz : ∀ (p : PauliUnitaryProjective) q, p.isPauliZ q = true ↔
      p = PauliUnitaryProjective.z q := by
    intro p q
    obtain ⟨xBits, zBits⟩ := p
    simp [PauliUnitaryProjective.isPauliZ, PauliUnitaryProjective.z]
  simp only [List.all_eq_true, List.mem_range'_1, Bool.and_eq_true, hx, hz]
  constructor
  · intro h q hk hq
    exact h q ⟨hk, by omega⟩
  · intro h q hq
    exact h q hq.1 (by omega)

theorem preimage_x (D : CliffordUnitaryModPauli) (q : ℕ) :
    D.preimage (PauliUnitaryProjective.x q) = D.preimageXView q := by
  simp [preimage, PauliUnitaryProjective.x, PauliUnitaryProjective.mulAssignRight,
    PauliUnitaryProjective.neutralElement]

theorem preimage_z (D : CliffordUnitaryModPauli) (q : ℕ) :
    D.preimage (PauliUnitaryProjective.z q) = D.preimageZView q := by
  simp [preimage, PauliUnitaryProjective.z, PauliUnitaryProjective.mulAssignRight,
    PauliUnitaryProjective.neutralElement]

theorem preimage_image {n : ℕ} (hD : D.ValidOn n) {p : PauliUnitaryProjective} (hp : p.Below n) :
    D.preimage (D.image p) = p := by
  have hC := validOn_hermitianLift hD
  have hbelow : p.hermitian.Below D.hermitianLift.numQubits := hC.numQubits_eq ▸ hp
  have hround : (D.hermitianLift.preimage (D.hermitianLift.image p.hermitian)).toPhased =
      p.hermitian.toPhased := by
    rw [toPhased_preimage (below_image hC.frame hbelow), lift_image hC.frame hbelow]
  have hbits := projective_eq_of_equalsTo (equalsTo_iff.mpr hround)
  simpa only [projective_preimage, projective_image,
    projective_hermitianLift, projective_hermitian] using hbits

theorem preimageViews_of_fixesQubit {n : ℕ} (hD : D.ValidOn n) {q : ℕ}
    (hq : q < n) (h : FixesQubit D.image q) : D.preimageXView q = PauliUnitaryProjective.x q ∧
      D.preimageZView q = PauliUnitaryProjective.z q := by
  have hunit : (Bits.unit q).Below n := Bits.below_unit.mpr hq
  have hx := preimage_image hD (p := PauliUnitaryProjective.x q) ⟨hunit, Bits.below_zero n⟩
  have hz := preimage_image hD (p := PauliUnitaryProjective.z q) ⟨Bits.below_zero n, hunit⟩
  rw [h.1, preimage_x] at hx
  rw [h.2, preimage_z] at hz
  exact ⟨hx, hz⟩

theorem resize_grow {n m : ℕ} (hD : D.ValidOn n) (hnm : n ≤ m) :
    ∃ D', D.resize m = some D' ∧ D'.ValidOn m ∧ AgreesBelow n D D' ∧
      (∀ q, n ≤ q → q < m → FixesQubit D'.image q ∧ FixesQubit D'.preimage q) ∧
        ∃ D'', D'.resize n = some D'' ∧ D''.numQubits = n ∧ D''.equalsTo D = true := by
  have hC := validOn_hermitianLift hD
  obtain ⟨C', hresize, hvalid, hagree, hfix, C'', hback, hn, heq⟩ :=
    CliffordUnitary.resize_grow hC hnm
  have hgrow := projective_resize
    (phaseFreeFrom_of_resize hresize)
  have hshrink := projective_resize (phaseFreeFrom_of_resize hback)
  rw [hresize] at hgrow
  rw [hback] at hshrink
  refine ⟨C'.projective, hgrow.symm, validOn_projective hvalid, agreesBelow_projective hagree,
    fun q hq hqm => ⟨?_, ?_⟩, C''.projective, hshrink.symm, hn, ?_⟩
  · exact fixesQubit_projective C'.projective_image (hfix q hq hqm).1
  · exact fixesQubit_projective C'.projective_preimage (hfix q hq hqm).2
  · exact (Bool.and_eq_true_iff.mp heq).2

theorem resize_shrink {n k : ℕ} (hD : D.ValidOn n) (hkn : k ≤ n) :
    ((∀ q, k ≤ q → q < n → FixesQubit D.image q) →
        ∃ D', D.resize k = some D' ∧ D'.ValidOn k ∧ AgreesBelow k D D') ∧
      ((¬ ∀ q, k ≤ q → q < n → FixesQubit D.image q) → D.resize k = none) := by
  have hn := hD.numQubits_eq
  have hC := validOn_hermitianLift hD
  obtain ⟨hsome, hnone⟩ := CliffordUnitary.resize_shrink hC hkn
  constructor
  · intro hfix
    have hviews : ∀ q, k ≤ q → q < D.numQubits → D.preimageXView q = PauliUnitaryProjective.x q ∧
        D.preimageZView q = PauliUnitaryProjective.z q :=
      fun q hk hq => preimageViews_of_fixesQubit hD (hn ▸ hq) (hfix q hk (hn ▸ hq))
    have hphase := phaseFreeFrom_hermitianLift hviews
    have hall := CliffordUnitary.shrinkable_iff.mpr ⟨shrinkable_iff.mpr hviews, hphase⟩
    have hfixes := shrinkable_iff_fixesFrom.mp hall
    rw [fixesFrom_iff_fixesQubit hC.frame, hC.numQubits_eq] at hfixes
    obtain ⟨C', hresize, hvalid, hagree⟩ := hsome hfixes
    have hproject := projective_resize hphase
    rw [hresize] at hproject
    exact ⟨C'.projective, hproject.symm, validOn_projective hvalid, agreesBelow_projective hagree⟩
  · intro hfix
    obtain ⟨q, hk, hq, hmoved⟩ : ∃ q, k ≤ q ∧ q < n ∧ ¬ FixesQubit D.image q := by
      push Not at hfix
      exact hfix
    have hkD : k < D.numQubits := by omega
    rw [resize, Nat.compare_eq_gt.mpr hkD]
    refine if_neg fun hall => hmoved ?_
    -- The assertions would make the image of every removed generator that generator.
    have hviews := shrinkable_iff.mp hall
    have hphase := phaseFreeFrom_hermitianLift hviews
    have hfixes := shrinkable_iff_fixesFrom.mp
      (CliffordUnitary.shrinkable_iff.mpr ⟨hall, hphase⟩)
    rw [fixesFrom_iff_fixesQubit hC.frame, hC.numQubits_eq] at hfixes
    exact fixesQubit_projective D.hermitianLift.projective_image (hfixes q hk hq)

end CliffordUnitaryModPauli

namespace CliffordUnitary

/-- Growing and shrinking change the qubit count of a Clifford unitary and nothing else. -/
theorem resize_spec {n : ℕ} (C : CliffordUnitary) (D : CliffordUnitaryModPauli) (hC : C.ValidOn n)
    (hD : D.ValidOn n) : (∀ m, n ≤ m →
        (∃ C', C.resize m = some C' ∧ C'.ValidOn m ∧ AgreesBelow n C C' ∧
          (∀ q, n ≤ q → q < m → FixesQubit C'.image q ∧ FixesQubit C'.preimage q) ∧
            ∃ C'', C'.resize n = some C'' ∧ C''.numQubits = n ∧ C''.equalsTo C = true) ∧
          ∃ D', D.resize m = some D' ∧ D'.ValidOn m ∧ CliffordUnitaryModPauli.AgreesBelow n D D' ∧
              (∀ q, n ≤ q → q < m → CliffordUnitaryModPauli.FixesQubit D'.image q ∧
                CliffordUnitaryModPauli.FixesQubit D'.preimage q) ∧
                ∃ D'', D'.resize n = some D'' ∧ D''.numQubits = n ∧ D''.equalsTo D = true) ∧
      ∀ k, k ≤ n → (((∀ q, k ≤ q → q < n → FixesQubit C.image q) →
            ∃ C', C.resize k = some C' ∧ C'.ValidOn k ∧ AgreesBelow k C C') ∧
          ((¬ ∀ q, k ≤ q → q < n → FixesQubit C.image q) → C.resize k = none)) ∧
          ((∀ q, k ≤ q → q < n → CliffordUnitaryModPauli.FixesQubit D.image q) →
              ∃ D', D.resize k = some D' ∧ D'.ValidOn k ∧
                CliffordUnitaryModPauli.AgreesBelow k D D') ∧
            ((¬ ∀ q, k ≤ q → q < n → CliffordUnitaryModPauli.FixesQubit D.image q) →
              D.resize k = none) :=
  ⟨fun _ hnm => ⟨resize_grow hC hnm, CliffordUnitaryModPauli.resize_grow hD hnm⟩,
    fun _ hkn => ⟨resize_shrink hC hkn, CliffordUnitaryModPauli.resize_shrink hD hkn⟩⟩

theorem resize_spec_identity :
    (identity 1).ValidOn 1 ∧ (CliffordUnitaryModPauli.identity 1).ValidOn 1 ∧
      ∃ C', (identity 1).resize 2 = some C' ∧ C'.ValidOn 2 := by
  have hD : (CliffordUnitaryModPauli.identity 1).ValidOn 1 := by decide
  obtain ⟨C', hresize, hvalid, -⟩ :=
    ((resize_spec (identity 1) (CliffordUnitaryModPauli.identity 1) (validOn_identity 1)
      hD).1 2 (by decide)).1
  exact ⟨validOn_identity 1, hD, C', hresize, hvalid⟩

end CliffordUnitary

end QdkEc
