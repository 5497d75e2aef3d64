import QdkEc.Paulimer.CliffordAction
import QdkEc.Paulimer.CliffordGroup

/-!
# Decomposition into transvections

This module models `clifford_to_transvections`: the greedy reduction of the
symplectic action of a Clifford unitary by Pauli exponentials, its assertion on
the number of factors included, and the symplectic matrix of a tableau.  The
reduction is an instance of the greedy reduction of an isometry by
transvections, whose cost bounds the number of factors.
-/

namespace QdkEc

open PhasedPauli PauliVector List GeneratorFrame Bits Transvection

variable {n : ℕ}

namespace PauliUnitary

/-- The number of `Y` factors. -/
def yWeight (p : PauliUnitary) : ℕ :=
  (Bits.inter p.xBits p.zBits).support.length

def assignPositiveHermitianPhase (pauli : PauliUnitary) : PauliUnitary :=
  { pauli with xzPhaseExp := UInt8.ofNat (pauli.yWeight % 4) }

/-- The positive Hermitian Pauli with the bits of a Pauli times its image. -/
def residueVector (pauli image : PauliUnitary) : PauliUnitary :=
  (image.mulAssignLeft pauli).assignPositiveHermitianPhase

/-- The image equals the Pauli up to a phase. -/
def actsTriviallyOn (pauli image : PauliUnitary) : Bool :=
  let difference := image.mulAssignLeft pauli
  difference.xBits == 0 && difference.zBits == 0

theorem orderTwo_assignPositiveHermitianPhase (pauli : PauliUnitary) :
    pauli.assignPositiveHermitianPhase.toPhased.OrderTwo := by
  have hphase : phaseResidue (UInt8.ofNat (pauli.yWeight % 4)) = (pauli.yWeight : ZMod 4) := by
    unfold phaseResidue
    rw [UInt8.toNat_ofNat', natCast_mod_four_mod _ _ (by decide),
      natCast_mod_four_mod _ _ (dvd_refl 4)]
  have hparity : Bits.dot pauli.zBits pauli.xBits = (pauli.yWeight % 2 == 1) := by
    rw [dot_comm]
    rfl
  rw [orderTwo_iff_phase]
  change phaseResidue (UInt8.ofNat (pauli.yWeight % 4)) +
    phaseResidue (UInt8.ofNat (pauli.yWeight % 4)) + twist (Bits.dot pauli.zBits pauli.xBits) = 0
  rw [hphase, hparity, ← Nat.cast_add]
  rcases Nat.even_or_odd' pauli.yWeight with ⟨w, hw | hw⟩
  · have hsum : ((pauli.yWeight + pauli.yWeight : ℕ) : ZMod 4) = 0 :=
      (ZMod.natCast_eq_zero_iff _ _).mpr ⟨w, by omega⟩
    rw [hsum, hw, Nat.mul_mod_right]
    rfl
  · have hsum : ((pauli.yWeight + pauli.yWeight : ℕ) : ZMod 4) = 2 := by
      rw [show pauli.yWeight + pauli.yWeight = 4 * w + 2 by omega]
      push_cast
      rw [show (4 : ZMod 4) = 0 by decide, zero_mul, zero_add]
    rw [hsum, hw, Nat.mul_add_mod]
    decide

theorem orderTwo_residueVector (pauli image : PauliUnitary) :
    (residueVector pauli image).toPhased.OrderTwo :=
  orderTwo_assignPositiveHermitianPhase _

theorem vector_residueVector (pauli image : PauliUnitary) :
    (residueVector pauli image).toPhased.vector =
      pauli.toPhased.vector + image.toPhased.vector := by
  rw [add_comm]
  rfl

theorem below_residueVector {pauli image : PauliUnitary} (hpauli : pauli.Below n)
    (himage : image.Below n) : (residueVector pauli image).Below n :=
  ⟨himage.1.add hpauli.1, himage.2.add hpauli.2⟩

theorem actsTriviallyOn_iff {pauli image : PauliUnitary} :
    actsTriviallyOn pauli image = true ↔ image.toPhased.vector = pauli.toPhased.vector := by
  simp only [actsTriviallyOn, mulAssignLeft, Bool.and_eq_true, beq_iff_eq, add_eq_zero_iff,
    Prod.ext_iff]
  rfl

end PauliUnitary

open PauliUnitary

/-- The generators `X_0, …, X_{n-1}, Z_0, …, Z_{n-1}`. -/
def symplecticBasis (qubitCount : ℕ) : List PauliUnitary :=
  (List.range qubitCount).map PauliUnitary.x ++ (List.range qubitCount).map PauliUnitary.z

variable {p : PauliUnitary}

theorem mem_symplecticBasis :
    p ∈ symplecticBasis n ↔ ∃ i, i < n ∧ (p = PauliUnitary.x i ∨ p = PauliUnitary.z i) := by
  simp only [symplecticBasis, mem_append, mem_map, mem_range]
  constructor
  · rintro (⟨i, hi, rfl⟩ | ⟨i, hi, rfl⟩)
    · exact ⟨i, hi, Or.inl rfl⟩
    · exact ⟨i, hi, Or.inr rfl⟩
  · rintro ⟨i, hi, rfl | rfl⟩
    · exact Or.inl ⟨i, hi, rfl⟩
    · exact Or.inr ⟨i, hi, rfl⟩

theorem below_of_mem_symplecticBasis (h : p ∈ symplecticBasis n) : p.Below n := by
  obtain ⟨i, hi, rfl | rfl⟩ := mem_symplecticBasis.mp h
  · exact below_X.mpr hi
  · exact below_Z.mpr hi

namespace CliffordUnitary

def anticommutingPair (basis images : List PauliUnitary) : Option PauliUnitary :=
  (List.range basis.length).findSome? fun first =>
    (List.range' (first + 1) (basis.length - (first + 1))).findSome? fun second =>
      let basisAt := fun index => basis.getD index neutralElement
      let imageAt := fun index => images.getD index neutralElement
      if (basisAt first).antiCommutesWith (imageAt second) ^^
          (basisAt second).antiCommutesWith (imageAt first) then
        some (residueVector ((basisAt first).mulAssignLeft (basisAt second))
          ((imageAt first).mulAssignLeft (imageAt second)))
      else none

/-- The next factor of the reduction, `none` when the tableau acts trivially. -/
def nextTransvection (working : CliffordUnitary) : Option PauliUnitary :=
  let basis := symplecticBasis working.numQubits
  let images := basis.map working.image
  match (basis.zip images).find? fun entry => entry.1.antiCommutesWith entry.2 with
  | some entry => some (residueVector entry.1 entry.2)
  | none =>
    match anticommutingPair basis images with
    | some vector => some vector
    | none =>
      ((basis.zip images).find? fun entry => !actsTriviallyOn entry.1 entry.2).map
        fun entry => residueVector entry.1 entry.2

/-- The reduction loop with the number of factors that may still be recorded; `none` is the failed
assertion on their number. -/
def reduceByTransvections (working : CliffordUnitary) (recorded : List PauliUnitary) :
    ℕ → Option (List PauliUnitary)
  | 0 =>
    match nextTransvection working with
    | none => some recorded.reverse
    | some _ => none
  | remaining + 1 =>
    match nextTransvection working with
    | none => some recorded.reverse
    | some transvection =>
      reduceByTransvections (working.leftMulPauliExp transvection)
        (recorded ++ [transvection]) remaining

/-- An ordered product of Pauli exponentials with the symplectic action of a tableau. -/
def cliffordToTransvections (clifford : CliffordUnitary) : Option (List PauliUnitary) :=
  reduceByTransvections clifford [] (4 * clifford.numQubits + 2)

/-- Write the bits of a preimage into one row of the symplectic matrix. -/
def assignSymplecticRow (row : Bits) (p : PauliUnitary) (qubitCount : ℕ) : Bits :=
  assignBitsWithOffset (assignBitsWithOffset row p.xBits 0 qubitCount) p.zBits qubitCount qubitCount

/-- The matrix whose rows are the bits of the preimages of `X` and then of `Z`. -/
def symplecticMatrix (C : CliffordUnitary) : AlignedBitMatrix :=
  (List.range C.numQubits).foldl
    (fun res qubit =>
      let res := res.setRow qubit
        (assignSymplecticRow (res.row qubit) (C.preimageXView qubit) C.numQubits)
      res.setRow (qubit + C.numQubits)
        (assignSymplecticRow (res.row (qubit + C.numQubits)) (C.preimageZView qubit) C.numQubits))
    (AlignedBitMatrix.zeros (2 * C.numQubits) (2 * C.numQubits))

/-- The rank of the symplectic matrix plus the identity matrix. -/
noncomputable def residueRank (C : CliffordUnitary) : ℕ :=
  Module.finrank (ZMod 2)
    (Bits.rowSpace (2 * C.numQubits) fun i => C.symplecticMatrix.row i + Bits.unit i)

variable {basis : List PauliUnitary} {g : PauliUnitary → PauliUnitary}

theorem mem_zip_images {entry : PauliUnitary × PauliUnitary} (h : entry ∈ basis.zip (basis.map g)) :
    entry.1 ∈ basis ∧ entry.2 = g entry.1 := by
  obtain ⟨i, hi, rfl⟩ := mem_iff_getElem.mp h
  rw [getElem_zip, getElem_map]
  exact ⟨getElem_mem _, rfl⟩

theorem entry_mem_zip_images (g : PauliUnitary → PauliUnitary) (h : p ∈ basis) :
    (p, g p) ∈ basis.zip (basis.map g) := by
  obtain ⟨i, hi, rfl⟩ := mem_iff_getElem.mp h
  refine mem_iff_getElem.mpr ⟨i, by simpa using hi, ?_⟩
  rw [getElem_zip, getElem_map]

theorem anticommutingPair_eq_some
    {vector : PauliUnitary} (h : anticommutingPair basis (basis.map g) = some vector) :
    ∃ p ∈ basis, ∃ q ∈ basis, (p.antiCommutesWith (g q) ^^ q.antiCommutesWith (g p)) = true ∧
        vector = residueVector (p.mulAssignLeft q) ((g p).mulAssignLeft (g q)) := by
  obtain ⟨first, hfirst, h⟩ := exists_of_findSome?_eq_some h
  obtain ⟨second, hsecond, h⟩ := exists_of_findSome?_eq_some h
  rw [mem_range] at hfirst
  rw [mem_range'_1] at hsecond
  have hsecond' : second < basis.length := by omega
  simp only [getD_eq_getElem _ _ hfirst, getD_eq_getElem _ _ hsecond',
    getD_eq_getElem (basis.map g) _ (by simpa using hfirst),
    getD_eq_getElem (basis.map g) _ (by simpa using hsecond'), getElem_map] at h
  split_ifs at h with hanti
  exact ⟨_, getElem_mem hfirst, _, getElem_mem hsecond', hanti, (Option.some.inj h).symm⟩

theorem anticommutingPair_eq_none
    (h : anticommutingPair basis (basis.map g) = none) {p q : PauliUnitary} (hp : p ∈ basis)
    (hq : q ∈ basis) : p.antiCommutesWith (g q) = q.antiCommutesWith (g p) := by
  have hpair : ∀ first second, first < second → (hsecond : second < basis.length) →
      ∀ hfirst : first < basis.length,
        basis[first].antiCommutesWith (g basis[second]) =
          basis[second].antiCommutesWith (g basis[first]) := by
    intro first second hlt hsecond hfirst
    have hnone := findSome?_eq_none_iff.mp
      (findSome?_eq_none_iff.mp h first (mem_range.mpr hfirst)) second
      (mem_range'_1.mpr ⟨by omega, by omega⟩)
    simp only [getD_eq_getElem _ _ hfirst, getD_eq_getElem _ _ hsecond,
      getD_eq_getElem (basis.map g) _ (by simpa using hfirst),
      getD_eq_getElem (basis.map g) _ (by simpa using hsecond), getElem_map] at hnone
    split_ifs at hnone with hanti
    simpa using hanti
  obtain ⟨i, hi, rfl⟩ := mem_iff_getElem.mp hp
  obtain ⟨j, hj, rfl⟩ := mem_iff_getElem.mp hq
  rcases Nat.lt_trichotomy i j with hij | rfl | hij
  · exact hpair i j hij hj hi
  · rfl
  · exact (hpair j i hij hi hj).symm

section NextTransvection

variable {C : CliffordUnitary} (hf : C.frame.Valid)

include hf

theorem generator_cases {v : PauliVector} (hv : v ∈ generators) :
    (∃ p ∈ symplecticBasis C.numQubits, p.toPhased.vector = v) ∨ imageAction hf v = v := by
  obtain ⟨i, hv⟩ := hv
  rcases Nat.lt_or_ge i C.numQubits with hi | hi
  · left
    rcases hv with rfl | rfl
    · exact ⟨PauliUnitary.x i, mem_symplecticBasis.mpr ⟨i, hi, Or.inl rfl⟩, rfl⟩
    · exact ⟨PauliUnitary.z i, mem_symplecticBasis.mpr ⟨i, hi, Or.inr rfl⟩, rfl⟩
  · right
    rcases hv with rfl | rfl
    · exact (fixesFrom_imageAction hf i hi).1
    · exact (fixesFrom_imageAction hf i hi).2

theorem form_imageAction {q : PauliUnitary} (hq : q.Below C.numQubits) (p : PauliUnitary) :
    form p.toPhased.vector (imageAction hf q.toPhased.vector) =
      signBit (p.antiCommutesWith (C.image q)) := by
  rw [imageAction_eq_image hf hq]
  rfl

theorem hyperbolic_of_searches
    (hself : ∀ p ∈ symplecticBasis C.numQubits, p.antiCommutesWith (C.image p) = false)
    (hpair : ∀ p ∈ symplecticBasis C.numQubits, ∀ q ∈ symplecticBasis C.numQubits,
      p.antiCommutesWith (C.image q) = q.antiCommutesWith (C.image p)) :
    Transvection.Hyperbolic form (imageAction hf) := by
  have hfixed : ∀ s t, imageAction hf t = t →
      form s (imageAction hf t) = form t (imageAction hf s) := by
    intro s t ht
    calc
      form s (imageAction hf t) = form s t := by rw [ht]
      _ = form t s := form_comm isAlt_form s t
      _ = form (imageAction hf t) (imageAction hf s) := (isometry_imageAction hf t s).symm
      _ = form t (imageAction hf s) := by rw [ht]
  refine hyperbolic_of_span span_generators ?_ ?_
  · intro s hs
    rcases generator_cases hf hs with ⟨p, hp, rfl⟩ | hfix
    · rw [form_imageAction hf (below_of_mem_symplecticBasis hp), hself p hp]
      rfl
    · rw [hfix]
      exact isAlt_form s
  · intro s hs t ht
    rcases generator_cases hf hs with ⟨p, hp, rfl⟩ | hfix
    · rcases generator_cases hf ht with ⟨q, hq, rfl⟩ | hfix
      · rw [form_imageAction hf (below_of_mem_symplecticBasis hq),
          form_imageAction hf (below_of_mem_symplecticBasis hp), hpair p hp q hq]
      · exact hfixed _ t hfix
    · exact (hfixed t s hfix).symm

theorem vector_residueVector_image (hp : p.Below C.numQubits) :
    (residueVector p (C.image p)).toPhased.vector =
      p.toPhased.vector + imageAction hf p.toPhased.vector := by
  rw [vector_residueVector, imageAction_eq_image hf hp]

/-- Every factor is Hermitian, lies within the tableau and is a step of the reduction. -/
theorem nextTransvection_eq_some {transvection : PauliUnitary}
    (h : nextTransvection C = some transvection) :
    transvection.toPhased.OrderTwo ∧ transvection.Below C.numQubits ∧
      Transvection.Step form (imageAction hf) transvection.toPhased.vector := by
  unfold nextTransvection at h
  simp only at h
  split at h
  next entry hentry =>
    obtain ⟨hmem, himage⟩ := mem_zip_images (mem_of_find?_eq_some hentry)
    have hbelow := below_of_mem_symplecticBasis hmem
    have hanti := find?_some hentry
    rw [himage] at hanti
    obtain rfl := Option.some.inj h
    rw [himage]
    refine ⟨orderTwo_residueVector _ _, below_residueVector hbelow (below_image hf hbelow), ?_⟩
    rw [vector_residueVector_image hf hbelow]
    refine Transvection.Step.lowering ?_
    rw [form_imageAction hf hbelow]
    exact signBit_eq_one.mpr hanti
  next hnone =>
    have hself : ∀ p ∈ symplecticBasis C.numQubits, p.antiCommutesWith (C.image p) = false := by
      intro p hp
      simpa using find?_eq_none.mp hnone _ (entry_mem_zip_images C.image hp)
    split at h
    next vector hvector =>
      obtain rfl := Option.some.inj h
      obtain ⟨p, hp, q, hq, hanti, rfl⟩ := anticommutingPair_eq_some hvector
      have hpb := below_of_mem_symplecticBasis hp
      have hqb := below_of_mem_symplecticBasis hq
      have hsum : (p.mulAssignLeft q).Below C.numQubits := ⟨hpb.1.add hqb.1, hpb.2.add hqb.2⟩
      have himages : ((C.image p).mulAssignLeft (C.image q)).Below C.numQubits :=
        ⟨(below_image hf hpb).1.add (below_image hf hqb).1,
          (below_image hf hpb).2.add (below_image hf hqb).2⟩
      have hvec : (p.mulAssignLeft q).toPhased.vector = p.toPhased.vector + q.toPhased.vector :=
        rfl
      have himage : ((C.image p).mulAssignLeft (C.image q)).toPhased.vector =
          imageAction hf (p.toPhased.vector + q.toPhased.vector) := by
        rw [map_add, imageAction_eq_image hf hpb, imageAction_eq_image hf hqb]
        rfl
      refine ⟨orderTwo_residueVector _ _, below_residueVector hsum himages, ?_⟩
      rw [vector_residueVector, hvec, himage]
      refine Transvection.Step.lowering ?_
      rw [map_add, map_add, map_add, LinearMap.add_apply, LinearMap.add_apply,
        form_imageAction hf hpb, form_imageAction hf hqb, form_imageAction hf hpb,
        form_imageAction hf hqb, hself p hp, hself q hq, ← signBit_xor, ← signBit_xor,
        ← signBit_xor, Bool.false_xor, Bool.xor_false, Bool.xor_comm]
      exact signBit_eq_one.mpr hanti
    next hpair =>
      obtain ⟨entry, hentry, rfl⟩ := Option.map_eq_some_iff.mp h
      obtain ⟨hmem, himage⟩ := mem_zip_images (mem_of_find?_eq_some hentry)
      have hbelow := below_of_mem_symplecticBasis hmem
      have hmoves := find?_some hentry
      rw [himage] at hmoves ⊢
      refine ⟨orderTwo_residueVector _ _, below_residueVector hbelow (below_image hf hbelow), ?_⟩
      rw [vector_residueVector_image hf hbelow]
      refine Transvection.Step.leaving ?_ ⟨_, rfl⟩ ?_
      · exact hyperbolic_of_searches hf hself
          fun p hp q hq => anticommutingPair_eq_none hpair hp hq
      · intro hzero
        rw [imageAction_eq_image hf hbelow, ← ZModModule.sub_eq_add, sub_eq_zero] at hzero
        rw [actsTriviallyOn_iff.mpr hzero.symm] at hmoves
        exact Bool.false_ne_true hmoves

theorem nextTransvection_eq_none (h : nextTransvection C = none) :
    imageAction hf = LinearMap.id := by
  unfold nextTransvection at h
  simp only at h
  split at h
  · contradiction
  · split at h
    · contradiction
    · rw [Option.map_eq_none_iff] at h
      refine LinearMap.ext_on span_generators fun v hv => ?_
      rcases generator_cases hf hv with ⟨p, hp, rfl⟩ | hfix
      · have hfixes := find?_eq_none.mp h _ (entry_mem_zip_images C.image hp)
        rw [imageAction_eq_image hf (below_of_mem_symplecticBasis hp)]
        exact actsTriviallyOn_iff.mp (by simpa using hfixes)
      · exact hfix

end NextTransvection

variable {C : CliffordUnitary}

theorem nextTransvection_step (hC : C.ValidOn n) {t : PauliUnitary}
    (h : nextTransvection C = some t) : (t.toPhased.OrderTwo ∧ t.Below n) ∧
      ∃ hC' : (C.leftMulPauliExp t).ValidOn n, cost form (imageAction hC'.frame) <
            cost form (imageAction hC.frame) ∧ imageAction hC.frame =
            along form t.toPhased.vector ∘ₗ imageAction hC'.frame := by
  obtain ⟨htwo, hbelow, hstep⟩ := nextTransvection_eq_some hC.frame h
  have hn : t.Below n := by
    rw [← hC.numQubits_eq]
    exact hbelow
  have hC' := hC.leftMulPauliExp hn htwo
  have haction := imageAction_leftMulPauliExp hC.frame hbelow htwo hC'.frame
  have hfinite := finiteDimensional_residue (fixesFrom_imageAction hC.frame)
  refine ⟨⟨htwo, hn⟩, hC', ?_, ?_⟩
  · rw [haction]
    exact hstep.cost_lt isAlt_form separating_form (isometry_imageAction hC.frame)
  · rw [haction]
    exact LinearMap.ext fun v => (along_along isAlt_form _ _).symm

theorem reduceByTransvections_spec {remaining : ℕ} (hC : C.ValidOn n)
    (recorded : List PauliUnitary) (hcost : cost form (imageAction hC.frame) ≤ remaining) :
    ∃ factors : List PauliUnitary,
      reduceByTransvections C recorded remaining = some (recorded ++ factors).reverse ∧
        (∀ p ∈ factors, p.toPhased.OrderTwo ∧ p.Below n) ∧ imageAction hC.frame =
            Transvection.product form (factors.map fun p => p.toPhased.vector) := by
  induction remaining generalizing C recorded with
  | zero =>
    cases hnext : nextTransvection C with
    | none =>
      refine ⟨[], ?_, by simp, nextTransvection_eq_none hC.frame hnext⟩
      simp [reduceByTransvections, hnext]
    | some t =>
      obtain ⟨-, hC', hlt, -⟩ := nextTransvection_step hC hnext
      omega
  | succ remaining ih =>
    cases hnext : nextTransvection C with
    | none =>
      refine ⟨[], ?_, by simp, nextTransvection_eq_none hC.frame hnext⟩
      simp [reduceByTransvections, hnext]
    | some t =>
      obtain ⟨ht, hC', hlt, haction⟩ := nextTransvection_step hC hnext
      obtain ⟨factors, hrun, hfactors, hproduct⟩ := ih hC' (recorded ++ [t]) (by omega)
      refine ⟨t :: factors, ?_, forall_mem_cons.mpr ⟨ht, hfactors⟩, ?_⟩
      · simp only [reduceByTransvections, hnext, hrun]
        simp
      · rw [haction, hproduct]
        rfl

theorem cliffordToTransvections_eq_some (hC : C.ValidOn n) :
    ∃ factors : List PauliUnitary, cliffordToTransvections C = some factors.reverse ∧
        (∀ p ∈ factors, p.toPhased.OrderTwo ∧ p.Below n) ∧ imageAction hC.frame =
            Transvection.product form (factors.map fun p => p.toPhased.vector) := by
  have hrank := finrank_residue_le (fixesFrom_imageAction hC.frame)
  have hcost := cost_le (B := form) (F := imageAction hC.frame)
  exact reduceByTransvections_spec hC [] (by omega)

theorem imageAction_foldl {factors : List PauliUnitary}
    (hfactors : ∀ p ∈ factors, p.toPhased.OrderTwo ∧ p.Below n) :
    ∃ hC : (factors.reverse.foldl leftMulPauliExp (identity n)).ValidOn n, imageAction hC.frame =
        Transvection.product form (factors.map fun p => p.toPhased.vector) := by
  rw [foldl_reverse]
  induction factors with
  | nil =>
    refine ⟨validOn_identity n, LinearMap.ext fun v => ?_⟩
    have hlift := imageAction_lift (validOn_identity n).frame v.operator
    rwa [frame_identity, lift_identity] at hlift
  | cons p factors ih =>
    obtain ⟨⟨htwo, hbelow⟩, hfactors⟩ := forall_mem_cons.mp hfactors
    obtain ⟨hC, haction⟩ := ih hfactors
    have hbelow' := hbelow
    rw [← hC.numQubits_eq] at hbelow'
    have hC' := hC.leftMulPauliExp hbelow htwo
    refine ⟨hC', ?_⟩
    rw [map_cons, Transvection.product, ← haction]
    exact imageAction_leftMulPauliExp hC.frame hbelow' htwo hC'.frame

open AlignedBitMatrix

theorem symplecticMatrix_eq_of_imageAction_eq {D : CliffordUnitary} (hC : C.frame.Valid)
    (hD : D.frame.Valid) (hn : C.numQubits = D.numQubits) (h : imageAction hC = imageAction hD) :
    C.symplecticMatrix = D.symplecticMatrix := by
  have hx : ∀ q < C.numQubits, (C.preimageXView q).toPhased.vector =
      (D.preimageXView q).toPhased.vector := by
    intro q hq
    have hlift := vector_lift_eq_of_imageAction_eq hC hD h (X q)
    rwa [lift_X, lift_X, frame_x hq, frame_x (by omega)] at hlift
  have hz : ∀ q < C.numQubits, (C.preimageZView q).toPhased.vector =
      (D.preimageZView q).toPhased.vector := by
    intro q hq
    have hlift := vector_lift_eq_of_imageAction_eq hC hD h (Z q)
    rwa [lift_Z, lift_Z, frame_z hq, frame_z (by omega)] at hlift
  have hrow : ∀ (row : Bits) {p q : PauliUnitary}, p.toPhased.vector = q.toPhased.vector →
      assignSymplecticRow row p C.numQubits = assignSymplecticRow row q C.numQubits := by
    intro row p q hpq
    obtain ⟨hxBits, hzBits⟩ := Prod.ext_iff.mp hpq
    unfold assignSymplecticRow
    rw [show p.xBits = q.xBits from hxBits, show p.zBits = q.zBits from hzBits]
  unfold symplecticMatrix
  rw [← hn]
  refine foldl_ext _ _ _ fun res q hq => ?_
  rw [mem_range] at hq
  simp only [hrow _ (hx q hq), hrow _ (hz q hq)]

/-- The bits of a Pauli in one row: the `X` bits, then the `Z` bits. -/
def rowOfVector (n : ℕ) : PauliVector →ₗ[ZMod 2] Bits :=
  AddMonoidHom.toZModLinearMap 2
    { toFun v := v.1 + v.2.shiftUp n
      map_zero' := by
        refine ext_index fun i => ?_
        simp
      map_add' u v := by
        refine ext_index fun i => ?_
        simp only [Prod.fst_add, Prod.snd_add, index_add, index_shiftUp]
        cases decide (n ≤ i) <;> simp [Bool.xor_left_comm] }

theorem rowOfVector_apply (n : ℕ) (v : PauliVector) : rowOfVector n v = v.1 + v.2.shiftUp n :=
  rfl

theorem rowOfVector_X (n i : ℕ) : rowOfVector n (X i).vector = Bits.unit i := by
  refine ext_index fun j => ?_
  rw [rowOfVector_apply, index_add, index_shiftUp]
  simp [vector]

theorem rowOfVector_Z (n i : ℕ) : rowOfVector n (Z i).vector = Bits.unit (i + n) := by
  refine ext_index fun j => ?_
  rw [rowOfVector_apply, index_add, index_shiftUp]
  simp only [vector, Z_xBits, Z_zBits, index_zero, index_unit, Bool.false_xor]
  rw [Bool.eq_iff_iff, Bool.and_eq_true, decide_eq_true_iff, decide_eq_true_iff, decide_eq_true_iff]
  omega

theorem assignSymplecticRow_zero (hp : p.Below n) :
    assignSymplecticRow 0 p n = rowOfVector n p.toPhased.vector := by
  obtain ⟨hx, hz⟩ := hp
  refine ext_index fun i => ?_
  unfold assignSymplecticRow
  rw [index_assignBitsWithOffset, index_assignBitsWithOffset, rowOfVector_apply, index_add,
    index_shiftUp]
  change _ = (p.xBits.index i ^^ (decide (n ≤ i) && p.zBits.index (i - n)))
  by_cases hlow : i < n
  · rw [if_neg (by omega), if_pos (by omega), decide_eq_false (by omega), Bool.false_and,
      Bool.xor_false, Nat.sub_zero]
  · have hxi : p.xBits.index i = false := hx.index_eq_false (by omega)
    rw [hxi, decide_eq_true (by omega), Bool.true_and, Bool.false_xor]
    by_cases hhigh : i < n + n
    · rw [if_pos (by omega)]
    · rw [if_neg (by omega), if_neg (by omega), index_zero]
      exact (hz.index_eq_false (by omega)).symm

theorem row_foldl_assignSymplecticRow (C : CliffordUnitary) {k : ℕ} (hk : k ≤ C.numQubits) :
    let M := (List.range k).foldl
      (fun res qubit =>
        let res := res.setRow qubit
          (assignSymplecticRow (res.row qubit) (C.preimageXView qubit) C.numQubits)
        res.setRow (qubit + C.numQubits)
          (assignSymplecticRow (res.row (qubit + C.numQubits)) (C.preimageZView qubit)
            C.numQubits))
      (zeros (2 * C.numQubits) (2 * C.numQubits))
    M.rowCount = 2 * C.numQubits ∧
      (∀ q < C.numQubits, M.row q =
        if q < k then assignSymplecticRow 0 (C.preimageXView q) C.numQubits else 0) ∧
        ∀ q < C.numQubits, M.row (q + C.numQubits) =
          if q < k then assignSymplecticRow 0 (C.preimageZView q) C.numQubits else 0 := by
  induction k with
  | zero => simp
  | succ k ih =>
    obtain ⟨hcount, hx, hz⟩ := ih (by omega)
    have hkx : k < C.numQubits := by omega
    rw [range_succ, foldl_append, foldl_cons, foldl_nil]
    generalize (List.range k).foldl _ _ = M at hcount hx hz ⊢
    have hxk := hx k hkx
    have hzk := hz k hkx
    rw [if_neg (by omega)] at hxk hzk
    refine ⟨hcount, fun q hq => ?_, fun q hq => ?_⟩
    · rw [row_setRow (by simp only [rowCount_setRow]; omega),
        if_neg (by omega), row_setRow (by omega), hxk]
      by_cases hqk : q = k
      · subst hqk
        rw [if_pos rfl, if_pos (by omega)]
      · rw [if_neg hqk, hx q hq]
        simp only [show q < k + 1 ↔ q < k by omega]
    · by_cases hqk : q = k
      · subst hqk
        rw [row_setRow (by simp only [rowCount_setRow]; omega),
          if_pos rfl, row_setRow (by omega), if_neg (by omega), hzk,
          if_pos (by omega)]
      · rw [row_setRow (by simp only [rowCount_setRow]; omega),
          if_neg (by omega), row_setRow (by omega), if_neg (by omega), hz q hq]
        simp only [show q < k + 1 ↔ q < k by omega]

theorem row_symplecticMatrix (hf : C.frame.Valid) {q : ℕ}
    (hq : q < C.numQubits) : C.symplecticMatrix.row q =
        rowOfVector C.numQubits (preimageAction hf (X q).vector) ∧
      C.symplecticMatrix.row (q + C.numQubits) =
        rowOfVector C.numQubits (preimageAction hf (Z q).vector) := by
  obtain ⟨-, hx, hz⟩ := row_foldl_assignSymplecticRow C le_rfl
  have hpad := paddingClear_of_frame hf q hq
  refine ⟨(hx q hq).trans ?_, (hz q hq).trans ?_⟩
  · rw [if_pos hq, assignSymplecticRow_zero hpad.1, preimageAction_vector, lift_X, frame_x hq]
  · rw [if_pos hq, assignSymplecticRow_zero hpad.2, preimageAction_vector, lift_Z, frame_z hq]

theorem rowSpace_symplecticMatrix_le (hf : C.frame.Valid) :
    Bits.rowSpace (2 * C.numQubits) (fun i => C.symplecticMatrix.row i + Bits.unit i) ≤
      (residue (imageAction hf)).map (rowOfVector C.numQubits) := by
  have hmem : ∀ v : PauliVector, rowOfVector C.numQubits (preimageAction hf v + v) ∈
      (residue (imageAction hf)).map (rowOfVector C.numQubits) := by
    intro v
    refine Submodule.mem_map_of_mem ⟨preimageAction hf v, ?_⟩
    change preimageAction hf v + imageAction hf (preimageAction hf v) = _
    rw [imageAction_preimageAction]
  rw [rowSpace_le]
  intro i hi
  rcases Nat.lt_or_ge i C.numQubits with hlow | hhigh
  · rw [(row_symplecticMatrix hf hlow).1, ← rowOfVector_X C.numQubits i, ← map_add]
    exact hmem _
  · obtain ⟨q, rfl⟩ := Nat.exists_eq_add_of_le' hhigh
    rw [(row_symplecticMatrix hf (by omega)).2, ← rowOfVector_Z C.numQubits q, ← map_add]
    exact hmem _

theorem residueRank_le (hf : C.frame.Valid) :
    C.residueRank ≤ Module.finrank (ZMod 2) (residue (imageAction hf)) := by
  have hfinite := finiteDimensional_residue (fixesFrom_imageAction hf)
  exact (Submodule.finrank_mono (rowSpace_symplecticMatrix_le hf)).trans
    (Submodule.finrank_map_le _ _)

/-- The decomposition into transvections is correct. -/
theorem cliffordToTransvections_spec {n : ℕ} (C : CliffordUnitary) (hC : C.ValidOn n) :
    ∃ transvections : List PauliUnitary, cliffordToTransvections C = some transvections ∧
        (∀ p ∈ transvections, p.isOrderTwo = true ∧ p.Below n) ∧
          (transvections.foldl leftMulPauliExp (identity n)).symplecticMatrix = C.symplecticMatrix ∧
            C.residueRank ≤ transvections.length := by
  obtain ⟨factors, hrun, hfactors, hproduct⟩ := cliffordToTransvections_eq_some hC
  obtain ⟨hrebuilt, haction⟩ := imageAction_foldl hfactors
  refine ⟨factors.reverse, hrun, ?_, ?_, ?_⟩
  · intro p hp
    obtain ⟨htwo, hbelow⟩ := hfactors p (mem_reverse.mp hp)
    exact ⟨PauliUnitary.isOrderTwo_iff.mpr htwo, hbelow⟩
  · refine symplecticMatrix_eq_of_imageAction_eq hrebuilt.frame hC.frame ?_ ?_
    · rw [hrebuilt.numQubits_eq, hC.numQubits_eq]
    · rw [haction, hproduct]
  · have hlength := finrank_residue_product_le (B := form)
      (factors.map fun p => p.toPhased.vector)
    rw [← hproduct, length_map] at hlength
    rw [length_reverse]
    exact (residueRank_le hC.frame).trans hlength

theorem cliffordToTransvections_spec_identity : (identity 2).ValidOn 2 ∧
      ∃ transvections : List PauliUnitary,
        cliffordToTransvections ((identity 2).leftMulHadamard 0) = some transvections ∧
          (transvections.foldl leftMulPauliExp (identity 2)).symplecticMatrix =
            ((identity 2).leftMulHadamard 0).symplecticMatrix := by
  refine ⟨validOn_identity 2, ?_⟩
  obtain ⟨transvections, hrun, -, hmatrix, -⟩ :=
    cliffordToTransvections_spec (n := 2) ((identity 2).leftMulHadamard 0) (by decide)
  exact ⟨transvections, hrun, hmatrix⟩

end CliffordUnitary

end QdkEc
