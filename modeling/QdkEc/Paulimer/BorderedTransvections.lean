import QdkEc.Binar.RowBasisCompletion
import QdkEc.Paulimer.ResidueCore

/-!
# Bordered transvections

This module models the decomposition of a symplectic action into one transvection more
than the rank of its residue, for a core that is not triangularizable by congruence.
A family of coordinate vectors is built by peeling vectors of length one and by a
simplex on the alternating rest; the code validates the family and verifies the product
of the transvections before it returns them, and searches when one of the checks fails.
-/

namespace QdkEc

open List Transvection Bits PauliVector

namespace TransvectionExact

open AlignedBitMatrix

/-- Coordinate vectors with one bit each. -/
structure BorderedFamily where
  vectors : List (List Bool)
  relation : List Bool

/-- The reasons to reject a family. -/
inductive BorderedFamilyIssue
  | coreShape
  | vectorCount
  | relationLength
  | vectorLength
  | evenRelation
  | nonUnitLower
  | nonzeroRelation
  | missingRank
deriving DecidableEq

/-- The form of a core on the vectors of a list. -/
def gramMatrix (core : AlignedBitMatrix) (vectors : List (List Bool)) (dimension : ℕ) :
    AlignedBitMatrix :=
  let coefficients := vectorsToMatrix vectors dimension
  (coefficients.dot core).dot coefficients.transposed

/-- Check the shapes of a family, and then everything that the construction promises. -/
def BorderedFamily.validate (family : BorderedFamily) (core : AlignedBitMatrix) :
    Except (List BorderedFamilyIssue) Unit :=
  let dimension := core.rowCount
  let count := family.vectors.length
  if core.columnCount ≠ dimension then .error [.coreShape]
  else if family.relation.length ≠ count then .error [.relationLength]
  else if family.vectors.any fun vector => vector.length != dimension then .error [.vectorLength]
  else
    let gram := gramMatrix core family.vectors dimension
    let unitLower := (List.range count).all fun row =>
      (List.range' row (count - row)).all fun column =>
        (gram.get row column ^^ (family.relation.getD row false &&
          family.relation.getD column false)) == decide (row = column)
    let nonzeroRelation := (List.range dimension).any fun column =>
      (family.vectors.zip family.relation).foldl
        (fun sum (vector, selected) => sum ^^ (selected && vector.getD column false)) false
    let coefficients := vectorsToMatrix family.vectors dimension
    let issues :=
      (if count ≠ dimension + 1 then [.vectorCount] else []) ++
      (if (family.relation.filter id).length % 2 ≠ 1 then [.evenRelation] else []) ++
      (if !unitLower then [.nonUnitLower] else []) ++
      (if nonzeroRelation then [.nonzeroRelation] else []) ++
      (if (rowReduceWithTransform coefficients).1.rowCount ≠ dimension then [.missingRank]
      else [])
    if issues.isEmpty then .ok () else .error issues

/-- No reason to reject the family is found. -/
def BorderedFamily.isValid (family : BorderedFamily) (core : AlignedBitMatrix) : Bool :=
  match family.validate core with
  | .ok _ => true
  | .error _ => false

/-- The first basis vector of length one, or the sum of the first pair on which the form is not
symmetric. -/
def familyPick (core : AlignedBitMatrix) (basis : List (List Bool)) : Option (List Bool) :=
  let restricted := gramMatrix core basis core.rowCount
  (((List.range basis.length).find? fun index => restricted.get index index).map fun index =>
      basis.getD index []).or
    ((List.range basis.length).findSome? fun first =>
      ((List.range' (first + 1) (basis.length - (first + 1))).find? fun second =>
        restricted.get first second != restricted.get second first).map fun second =>
          xorVectors (basis.getD first []) (basis.getD second []))

/-- The projection of a vector to the complement of a coupled pair. -/
def projectPair (core : AlignedBitMatrix) (first second vector : List Bool) : List Bool :=
  let projected := if bilinear core second vector then xorVectors vector first else vector
  if bilinear core first vector then xorVectors projected second else projected

/-- A simplex on an alternating restriction: the simplex on the complement of a coupled pair,
extended by two points. -/
def symplecticSimplex (core : AlignedBitMatrix) :
    List (List Bool) → Option (List (List Bool))
  | [] => some [List.replicate core.rowCount false]
  | first :: rest =>
    match rest.findIdx? (bilinear core first) with
    | none => none
    | some partner =>
      let second := rest.getD partner []
      let complement := (rest.eraseIdx partner).map (projectPair core first second)
      (symplecticSimplex core complement).map fun vectors =>
        second :: xorVectors first second :: vectors.map fun vector => xorVectors vector first
termination_by basis => basis.length
decreasing_by
  rw [length_map, length_cons]
  exact Nat.lt_succ_of_le (length_eraseIdx_le _ _)

variable {basis : List (List Bool)} {core : AlignedBitMatrix} {n : ℕ}

theorem length_rightOrthogonalComplement {pick : List Bool}
    {complement : List (List Bool)}
    (h : rightOrthogonalComplement core pick basis = some complement) :
    complement.length < basis.length := by
  rw [rightOrthogonalComplement] at h
  cases hfind : (basis.map (bilinear core pick)).findIdx? id with
  | none =>
    rw [hfind] at h
    cases h
  | some pivot =>
    obtain ⟨hpivot, _⟩ := findIdx?_eq_some_iff_getElem.mp hfind
    rw [length_map] at hpivot
    rw [hfind] at h
    obtain rfl := Option.some.inj h
    rw [length_map, length_eraseIdx, if_pos (by simpa using hpivot), length_zip,
      length_map, Nat.min_self]
    omega

/-- Peel a vector of length one, or build a simplex on an alternating restriction. -/
def borderedFamily (core : AlignedBitMatrix) (basis : List (List Bool)) :
    Option BorderedFamily :=
  match familyPick core basis with
  | some pick =>
    match _hcomplement : rightOrthogonalComplement core pick basis with
    | none => none
    | some complement =>
      (borderedFamily core complement).map fun family =>
        { vectors := pick :: family.vectors, relation := false :: family.relation }
  | none =>
    (symplecticSimplex core basis).map fun vectors =>
      { vectors := vectors, relation := List.replicate vectors.length true }
termination_by basis.length
decreasing_by exact length_rightOrthogonalComplement _hcomplement

/-- A row as a vector of a given length. -/
def matrixRow (matrix : AlignedBitMatrix) (index length : ℕ) : List Bool :=
  (List.range length).map fun column => matrix.get index column

/-- The vectors of a valid family in the basis of the residue. -/
def borderedDecomposition (core basis : AlignedBitMatrix) : Option (List (List Bool)) := do
  let rank := core.rowCount
  let family ← borderedFamily core (standardBasis rank)
  if !family.isValid core then none
  else
    let defining := (vectorsToMatrix family.vectors rank).dot basis
    some ((List.range defining.rowCount).map fun row =>
      matrixRow defining row basis.columnCount)

def rightMultiplyTransvection (qubitCount : ℕ) (matrix : AlignedBitMatrix) (vector : List Bool) :
    AlignedBitMatrix :=
  let packed := Bits.ofBools vector
  let dual := Bits.ofBools (vector.drop qubitCount ++ vector.take qubitCount)
  (List.range matrix.rowCount).foldl
    (fun matrix row =>
      if Bits.dot (matrix.row row) dual then matrix.setRow row (matrix.row row + packed)
      else matrix) matrix

/-- The vectors have the right number and length, are nonzero, and their transvections multiply to
the action. -/
def verifiesBorderedDecomposition (action : AlignedBitMatrix) (qubitCount rank : ℕ)
    (vectors : List (List Bool)) :
    Bool :=
  let dimension := 2 * qubitCount
  if vectors.length ≠ rank + 1 || vectors.any fun vector =>
      vector.length != dimension || !vector.any id then false
  else (vectors.foldl (rightMultiplyTransvection qubitCount) (identity dimension)).eq action

def transvectionMatrix (vector : List Bool) (qubitCount : ℕ) : AlignedBitMatrix :=
  (List.range (2 * qubitCount)).foldl
    (fun matrix row =>
      let coupling :=
        if row < qubitCount then vector.getD (qubitCount + row) false
        else vector.getD (row - qubitCount) false
      if coupling then
        vector.zipIdx.foldl (fun matrix (bit, column) =>
          if bit then matrix.set row column !(matrix.get row column) else matrix) matrix
      else matrix)
    (identity (2 * qubitCount))

/-- The first residue vector whose transvection leaves a triangularizable core of the same rank;
`none` is the panic of the exhausted search. -/
def findFixVector (action : AlignedBitMatrix) (qubitCount : ℕ) (basis : AlignedBitMatrix)
    (rank : ℕ) :
    Option (List Bool) :=
  let dimension := 2 * qubitCount
  let lift := fun coordinates : List Bool =>
    coordinates.zipIdx.foldl (fun vector (selected, row) =>
      if selected then vector.mapIdx fun column slot => slot ^^ basis.get row column else vector)
      (List.replicate dimension false)
  let accepts := fun vector : List Bool =>
    if vector.all fun bit => !bit then false
    else
      let updated := action.dot (transvectionMatrix vector qubitCount)
      let (_, updatedRank, updatedCore) := residueCore updated qubitCount
      updatedRank == rank && (congruenceTriangularize updatedCore).isSome
  ((spanVectors (standardBasis rank)).map lift).find? accepts

/-- The candidate when it is verified; else a fix vector behind a decomposition of the action
without it. -/
def verifiedDecompositionOrSearch (decompose : AlignedBitMatrix → ℕ → Option (List (List Bool)))
    (action : AlignedBitMatrix) (qubitCount : ℕ) (basis : AlignedBitMatrix)
    (candidate : Option (List (List Bool))) :
    Option (List (List Bool)) :=
  let rank := basis.rowCount
  match candidate.filter (verifiesBorderedDecomposition action qubitCount rank) with
  | some vectors => some vectors
  | none => do
      let fix ← findFixVector action qubitCount basis rank
      let vectors ← decompose (action.dot (transvectionMatrix fix qubitCount)) qubitCount
      some (vectors ++ [fix])

/-- The vectors of a shortest decomposition; the first argument bounds the nested searches. -/
def minimalDecomposition :
    ℕ → AlignedBitMatrix → ℕ → Option (List (List Bool))
  | 0, _, _ => none
  | searches + 1, action, qubitCount =>
    let (basis, rank, core) := residueCore action qubitCount
    if rank = 0 then some []
    else
      match congruenceTriangularize core with
      | none =>
        verifiedDecompositionOrSearch (minimalDecomposition searches) action qubitCount basis
          (borderedDecomposition core basis)
      | some transform =>
        let defining := transform.dot basis
        some ((List.range rank).map fun row => matrixRow defining row (2 * qubitCount))

theorem any_zipIdx_eq {α : Type*} (l : List α) (d : α) {p : α → Bool} (hd : p d = false) (i : ℕ) :
    (l.zipIdx.any fun entry => p entry.1 && decide (i = entry.2)) = p (l.getD i d) := by
  rw [Bool.eq_iff_iff, any_eq_true]
  constructor
  · rintro ⟨⟨a, k⟩, hmem, hp⟩
    rw [Bool.and_eq_true, decide_eq_true_iff] at hp
    obtain ⟨hp, rfl⟩ := hp
    rw [getD_eq_getElem?_getD, List.mk_mem_zipIdx_iff_getElem?.mp hmem]
    exact hp
  · intro hp
    rcases Nat.lt_or_ge i l.length with hi | hi
    · rw [getD_eq_getElem _ _ hi] at hp
      refine ⟨(l[i], i), List.mk_mem_zipIdx_iff_getElem?.mpr (getElem?_eq_getElem hi), ?_⟩
      rw [hp, decide_eq_true rfl, Bool.and_self]
    · rw [getD_eq_default _ _ hi, hd] at hp
      cases hp

theorem filled_vectorsToMatrix (vectors : List (List Bool)) (columns : ℕ) :
    Filled (zeros vectors.length columns) (vectorsToMatrix vectors columns) fun i j =>
      (vectors.getD i []).getD j false := by
  refine (Filled.foldl (p := fun entry i j => entry.1.getD j false && decide (i = entry.2))
    fun filled hfilled entry hentry => ?_).congr fun i j =>
      any_zipIdx_eq vectors [] (p := fun vector => vector.getD j false) rfl i
  obtain ⟨vector, row⟩ := entry
  have hrow : row < filled.rowCount := by
    rw [hfilled, rowCount_zeros]
    exact (List.getElem?_eq_some_iff.mp (List.mk_mem_zipIdx_iff_getElem?.mp hentry)).1
  refine (Filled.foldl fun filled' hfilled' entry _ =>
    Filled.setIf (hrow.trans_eq hfilled'.symm) entry.2 entry.1).congr fun i j => ?_
  have hany := any_zipIdx_eq vector false (p := fun bit => bit) rfl j
  rw [← hany]
  cases decide (i = row) with
  | false => simp
  | true => simp

theorem row_vectorsToMatrix (vectors : List (List Bool)) (columns : ℕ) :
    (vectorsToMatrix vectors columns).row = rowsOf vectors := by
  funext i
  refine ext_index fun j => ?_
  rw [(filled_vectorsToMatrix vectors columns).index_row, rowsOf, index_ofBools]

theorem rowCount_vectorsToMatrix (vectors : List (List Bool)) (columns : ℕ) :
    (vectorsToMatrix vectors columns).rowCount = vectors.length := by
  rw [(filled_vectorsToMatrix vectors columns).rowCount_eq, rowCount_zeros]

theorem columnCount_vectorsToMatrix (vectors : List (List Bool)) (columns : ℕ) :
    (vectorsToMatrix vectors columns).columnCount = columns := by
  rw [(filled_vectorsToMatrix vectors columns).columnCount_eq, columnCount_zeros]

variable {vectors : List (List Bool)}

theorem below_rowsOf (h : ∀ v ∈ vectors, v.length = n) (i : ℕ) :
    (rowsOf vectors i).Below n := by
  rcases Nat.lt_or_ge i vectors.length with hi | hi
  · rw [rowsOf, getD_eq_getElem _ _ hi]
    exact below_ofBools (h _ (getElem_mem hi)).le
  · rw [rowsOf_of_le hi]
    exact below_zero n

section Core

variable {core : AlignedBitMatrix} (hsquare : core.columnCount = core.rowCount)
  (hclear : core.Clear)

include hsquare hclear

theorem signBit_gramMatrix (h : ∀ v ∈ vectors, v.length = core.rowCount)
    {i : ℕ} (hi : i < vectors.length) (j : ℕ) :
    signBit ((gramMatrix core vectors core.rowCount).get i j) =
      coreForm core (rowsOf vectors i) (rowsOf vectors j) := by
  have hrows : ∀ k, ((vectorsToMatrix vectors core.rowCount).transposed.row k).index j =
      (rowsOf vectors j).index k := by
    intro k
    rcases Nat.lt_or_ge k core.rowCount with hk | hk
    · rw [← row_vectorsToMatrix vectors core.rowCount]
      exact get_transposed (by rwa [columnCount_vectorsToMatrix]) j
    · rw [row_of_le (by rwa [rowCount_transposed, columnCount_vectorsToMatrix]), index_zero,
        (below_rowsOf h j).index_eq_false hk]
  have hbelow : (Bits.combine core.row (rowsOf vectors i)).Below core.rowCount :=
    below_combine _ fun k _ => hsquare ▸ hclear k
  rw [coreForm_apply, gramMatrix, AlignedBitMatrix.get,
    row_dot _ _ (by rwa [rowCount_dot, rowCount_vectorsToMatrix]),
    row_dot _ _ (by rwa [rowCount_vectorsToMatrix]), columnCount_dot, hsquare,
    columnCount_vectorsToMatrix, row_vectorsToMatrix, low_eq_self (below_rowsOf h i),
    low_eq_self hbelow, index_combine _ hrows,
    dot_combine _ fun k => (core.index_mulVec _ k).symm]

end Core

theorem signBit_smul (b : Bool) (v : Bits) : signBit b • v = if b then v else 0 := by
  cases b with
  | false => exact zero_smul _ v
  | true => exact one_smul _ v

theorem bitsOf_cons (v : List Bool) (l : List (List Bool)) :
    bitsOf (v :: l) = ofBools v :: bitsOf l :=
  rfl

theorem projectPair_spec {first second v : List Bool}
    (hfirst : first.length = core.rowCount) (hsecond : second.length = core.rowCount)
    (hv : v.length = core.rowCount) : (projectPair core first second v).length = core.rowCount ∧
      ofBools (projectPair core first second v) = ofBools v +
        coreForm core (ofBools second) (ofBools v) • ofBools first +
          coreForm core (ofBools first) (ofBools v) • ofBools second := by
  have hxor := length_xorVectors hv hfirst
  rw [coreForm_ofBools hv, coreForm_ofBools hv, signBit_smul, signBit_smul, projectPair]
  split_ifs
  · exact ⟨length_xorVectors hxor hsecond, by
      rw [ofBools_xorVectors hxor hsecond, ofBools_xorVectors hv hfirst]⟩
  · exact ⟨length_xorVectors hv hsecond, by rw [ofBools_xorVectors hv hsecond, add_zero]⟩
  · exact ⟨hxor, by rw [ofBools_xorVectors hv hfirst, add_zero]⟩
  · exact ⟨hv, by rw [add_zero, add_zero]⟩

theorem exists_coupled {first : List Bool} {rest : List (List Bool)}
    (hrest : ∀ v ∈ rest, v.length = core.rowCount)
    (hrank : Transvection.FullRank (bitsOf (first :: rest)))
    (hself : Transvection.AlternatingOn (coreForm core) (spanOf (bitsOf (first :: rest))))
    (hseparating : Transvection.RightSeparating (coreForm core) (spanOf (bitsOf (first :: rest)))) :
    ∃ v ∈ rest, bilinear core first v = true := by
  have hfirst : ofBools first ∈ spanOf (bitsOf (first :: rest)) :=
    mem_spanOf mem_cons_self
  by_contra hnone
  push Not at hnone
  have hle : spanOf (bitsOf (first :: rest)) ≤
      LinearMap.ker (coreForm core (ofBools first)) := by
    refine spanOf_le.mpr fun u hu => ?_
    rcases mem_cons.mp hu with rfl | hu
    · exact hself _ hfirst
    · obtain ⟨v, hv, rfl⟩ := mem_map.mp hu
      have hfalse : bilinear core first v = false := by simpa using hnone v hv
      rw [LinearMap.mem_ker, coreForm_ofBools (hrest v hv), hfalse]
      rfl
  refine hrank.ne_zero (hseparating _ hfirst fun u hu => ?_)
  rw [hself.comm hu hfirst]
  exact hle hu

theorem simplex_symplecticSimplex {size : ℕ} (hsize : basis.length = size)
    (hbasis : ∀ v ∈ basis, v.length = core.rowCount) (hrank : Transvection.FullRank (bitsOf basis))
    (hself : Transvection.AlternatingOn (coreForm core) (spanOf (bitsOf basis))) (hseparating :
      Transvection.RightSeparating (coreForm core) (spanOf (bitsOf basis))) :
    ∃ vectors, symplecticSimplex core basis = some vectors ∧ vectors.length = size + 1 ∧
      (∀ v ∈ vectors, v.length = core.rowCount) ∧
        Transvection.Simplex (coreForm core) (bitsOf vectors) (spanOf (bitsOf basis)) := by
  induction size using Nat.strong_induction_on generalizing basis with
  | h size ih =>
    cases basis with
    | nil =>
      have hzero : ofBools (List.replicate core.rowCount false) = 0 := by
        refine ext_index fun i => ?_
        rw [index_ofBools, index_zero]
        simp
      refine ⟨[List.replicate core.rowCount false], by rw [symplecticSimplex], ?_, ?_, ?_⟩
      · rw [← hsize]
        rfl
      · intro v hv
        rw [mem_singleton.mp hv, length_replicate]
      · rw [bitsOf_cons, hzero]
        exact (spanOf_nil (V := Bits)) ▸ simplex_zero
    | cons first rest =>
      have hfirstLength := hbasis first mem_cons_self
      have hrest : ∀ v ∈ rest, v.length = core.rowCount :=
        fun v hv => hbasis v (mem_cons_of_mem first hv)
      have hfirst : ofBools first ∈ spanOf (bitsOf (first :: rest)) :=
        mem_spanOf mem_cons_self
      obtain ⟨coupled, hcoupledMem, hcoupledBit⟩ :=
        exists_coupled hrest hrank hself hseparating
      obtain ⟨partner, hfind⟩ : ∃ partner, rest.findIdx? (bilinear core first) = some partner := by
        rw [← Option.isSome_iff_exists, findIdx?_isSome, any_eq_true]
        exact ⟨coupled, hcoupledMem, hcoupledBit⟩
      obtain ⟨hpartner, hbit, _⟩ := findIdx?_eq_some_iff_getElem.mp hfind
      have hget : rest.getD partner [] = rest[partner] := getD_eq_getElem _ _ hpartner
      generalize hsecondEq : rest[partner] = second at hbit hget
      have hsecondRest : second ∈ rest := by
        rw [← hsecondEq]
        exact getElem_mem hpartner
      have hsecondLength := hrest second hsecondRest
      have hsecond : ofBools second ∈ spanOf (bitsOf (first :: rest)) :=
        mem_spanOf
          (mem_map_of_mem (f := ofBools) (mem_cons_of_mem first hsecondRest))
      have hcoupled : coreForm core (ofBools first) (ofBools second) = 1 := by
        rw [coreForm_ofBools hsecondLength, hbit]
        rfl
      have hothers : ∀ v ∈ rest.eraseIdx partner, v.length = core.rowCount :=
        fun v hv => hrest v (mem_of_mem_eraseIdx hv)
      have hcount := length_eraseIdx_add_one hpartner
      generalize hothersEq : rest.eraseIdx partner = others at hothers hcount
      have hperm : (first :: second :: others).Perm (first :: rest) := by
        rw [← hothersEq, ← hsecondEq]
        exact (getElem_cons_eraseIdx_perm hpartner).cons first
      have hspan : spanOf (ofBools first :: ofBools second :: bitsOf others) =
          spanOf (bitsOf (first :: rest)) :=
        spanOf_perm (hperm.map ofBools)
      have hproject : ∀ v ∈ others, _ :=
        fun v hv => projectPair_spec hfirstLength hsecondLength (hothers v hv)
      have hcomplement : spanOf (bitsOf (others.map (projectPair core first second))) =
          pairComplement (coreForm core) (ofBools first) (ofBools second)
            (spanOf (bitsOf (first :: rest))) := by
        rw [← spanOf_map_project hself hfirst hsecond hcoupled hspan]
        congr 1
        rw [bitsOf, bitsOf, map_map, map_map]
        exact map_congr_left fun v hv => (hproject v hv).2
      have hle : spanOf (bitsOf (others.map (projectPair core first second))) ≤
          spanOf (bitsOf (first :: rest)) := hcomplement ▸ inf_le_left
      have hfull : Transvection.FullRank (bitsOf (others.map (projectPair core first second))) := by
        refine (hrank.of_span (m := ofBools first :: ofBools second ::
          bitsOf (others.map (projectPair core first second))) ?_ ?_).tail.tail
        · rw [← span_pair_sup_pairComplement hself hfirst hsecond hcoupled,
            ← hcomplement, spanOf_cons, spanOf_cons, sup_assoc]
        · simp only [bitsOf, length_cons, length_map]
          omega
      obtain ⟨vectors, hvectors, hlength, hlengths, hsimplex⟩ := ih
        (others.map (projectPair core first second)).length
        (by rw [length_map, ← hsize, length_cons]; omega) rfl
        (fun v hv => by
          obtain ⟨w, hw, rfl⟩ := mem_map.mp hv
          exact (hproject w hw).1) hfull (fun v hv => hself v (hle hv))
        (hcomplement ▸ hseparating.pairComplement hself hfirst hsecond hcoupled)
      rw [hcomplement] at hsimplex
      refine ⟨second :: xorVectors first second ::
        vectors.map fun vector => xorVectors vector first, ?_, ?_, ?_, ?_⟩
      · rw [symplecticSimplex, hfind]
        simp only [hget, hothersEq]
        rw [hvectors]
        rfl
      · rw [length_cons, length_cons, length_map, hlength, length_map, ← hsize, length_cons]
        omega
      · intro v hv
        rcases mem_cons.mp hv with rfl | hv
        · exact hsecondLength
        · rcases mem_cons.mp hv with rfl | hv
          · exact length_xorVectors hfirstLength hsecondLength
          · obtain ⟨w, hw, rfl⟩ := mem_map.mp hv
            exact length_xorVectors (hlengths w hw) hfirstLength
      · have hextended := hsimplex.extend hself hfirst hsecond hcoupled
        have hbits : bitsOf (second :: xorVectors first second ::
            vectors.map fun vector => xorVectors vector first) = ofBools second ::
              (ofBools first + ofBools second) ::
                (bitsOf vectors).map fun v => v + ofBools first := by
          rw [bitsOf_cons, bitsOf_cons, ofBools_xorVectors hfirstLength hsecondLength, bitsOf,
            bitsOf, map_map, map_map]
          congr 2
          exact map_congr_left fun w hw =>
            ofBools_xorVectors (hlengths w hw) hfirstLength
        rw [hbits]
        exact hextended

section Family

variable {core : AlignedBitMatrix} (hsquare : core.columnCount = core.rowCount)
  (hclear : core.Clear) {basis : List (List Bool)} (hbasis : ∀ v ∈ basis, v.length = core.rowCount)

include hsquare hclear hbasis

theorem signBit_gramMatrix_getElem {i j : ℕ} (hi : i < basis.length) (hj : j < basis.length) :
    signBit ((gramMatrix core basis core.rowCount).get i j) =
      coreForm core (ofBools basis[i]) (ofBools basis[j]) := by
  rw [signBit_gramMatrix hsquare hclear hbasis hi, rowsOf, rowsOf, getD_eq_getElem _ _ hi,
    getD_eq_getElem _ _ hj]

theorem familyPick_eq_some {pick : List Bool} (h : familyPick core basis = some pick) :
    pick.length = core.rowCount ∧ ofBools pick ∈ spanOf (bitsOf basis) ∧
      bilinear core pick pick = true := by
  have hentry := fun i (hi : i < basis.length) j (hj : j < basis.length) =>
    signBit_gramMatrix_getElem hsquare hclear hbasis hi hj
  have hmem : ∀ i (hi : i < basis.length),
      ofBools basis[i] ∈ spanOf (bitsOf basis) := fun i hi =>
    mem_spanOf (mem_map_of_mem (getElem_mem hi))
  have hlength : ∀ i (hi : i < basis.length), basis[i].length = core.rowCount :=
    fun i hi => hbasis _ (getElem_mem hi)
  rw [familyPick] at h
  generalize gramMatrix core basis core.rowCount = restricted at h hentry
  cases hfind : (List.range basis.length).find? fun index => restricted.get index index with
  | some index =>
    rw [hfind] at h
    have hindex := mem_range.mp (mem_of_find?_eq_some hfind)
    have hone := find?_some (p := fun index => restricted.get index index) hfind
    have hvalue := hentry index hindex index hindex
    rw [hone, coreForm_ofBools (hlength index hindex)] at hvalue
    obtain rfl : basis[index] = pick := by simpa [getD_eq_getElem, hindex] using h
    exact ⟨hlength index hindex, hmem index hindex, signBit_eq_one.mp hvalue.symm⟩
  | none =>
    rw [hfind, Option.map_none, Option.none_or] at h
    obtain ⟨first, hfirst, hsecond⟩ := exists_of_findSome?_eq_some h
    obtain ⟨second, hfindSecond, rfl⟩ := Option.map_eq_some_iff.mp hsecond
    have hi := mem_range.mp hfirst
    obtain ⟨_, hj⟩ := mem_range'_sub.mp (mem_of_find?_eq_some hfindSecond)
    have hne := find?_some
      (p := fun second => restricted.get first second != restricted.get second first) hfindSecond
    have hdiagonal : ∀ k (hk : k < basis.length),
        coreForm core (ofBools basis[k]) (ofBools basis[k]) = 0 := by
      intro k hk
      rw [find?_eq_none] at hfind
      rw [← hentry k hk k hk, signBit_eq_zero]
      simpa using hfind k (mem_range.mpr hk)
    have hxor := length_xorVectors (hlength first hi) (hlength second hj)
    rw [getD_eq_getElem _ _ hi, getD_eq_getElem _ _ hj]
    refine ⟨hxor, ?_, signBit_eq_one.mp ?_⟩
    · rw [ofBools_xorVectors (hlength first hi) (hlength second hj)]
      exact Submodule.add_mem _ (hmem first hi) (hmem second hj)
    · rw [← coreForm_ofBools hxor, ofBools_xorVectors (hlength first hi) (hlength second hj),
        map_add, map_add, LinearMap.add_apply, LinearMap.add_apply, hdiagonal first hi,
        hdiagonal second hj, ← hentry first hi second hj, ← hentry second hj first hi, zero_add,
        add_zero, ← signBit_xor, signBit_eq_one]
      revert hne
      cases restricted.get first second <;> cases restricted.get second first <;> simp

theorem alternatingOn_of_familyPick (h : familyPick core basis = none) :
    Transvection.AlternatingOn (coreForm core) (spanOf (bitsOf basis)) := by
  have hentry := fun i (hi : i < basis.length) j (hj : j < basis.length) =>
    signBit_gramMatrix_getElem hsquare hclear hbasis hi hj
  rw [familyPick] at h
  generalize gramMatrix core basis core.rowCount = restricted at h hentry
  obtain ⟨hfind, hpairs⟩ := Option.or_eq_none_iff.mp h
  rw [Option.map_eq_none_iff, find?_eq_none] at hfind
  rw [findSome?_eq_none_iff] at hpairs
  have hsymm : ∀ i j, i < j → j < basis.length → restricted.get i j = restricted.get j i := by
    intro i j hij hj
    have hnone := Option.map_eq_none_iff.mp (hpairs i (mem_range.mpr (by omega)))
    rw [find?_eq_none] at hnone
    simpa using hnone j (mem_range'_sub.mpr ⟨hij, hj⟩)
  refine alternatingOn_spanOf (fun u hu => ?_) fun u hu w hw => ?_
  · obtain ⟨v, hv, rfl⟩ := mem_map.mp hu
    obtain ⟨i, hi, rfl⟩ := mem_iff_getElem.mp hv
    rw [← hentry i hi i hi, signBit_eq_zero]
    simpa using hfind i (mem_range.mpr hi)
  · obtain ⟨v, hv, rfl⟩ := mem_map.mp hu
    obtain ⟨i, hi, rfl⟩ := mem_iff_getElem.mp hv
    obtain ⟨v, hv, rfl⟩ := mem_map.mp hw
    obtain ⟨j, hj, rfl⟩ := mem_iff_getElem.mp hv
    rw [← hentry i hi j hj, ← hentry j hj i hi]
    rcases Nat.lt_trichotomy i j with hlt | rfl | hlt
    · rw [hsymm i j hlt hj]
    · rfl
    · rw [hsymm j i hlt hi]

end Family

/-- The vectors of a family as bit sets, with their bits. -/
def BorderedFamily.entries (family : BorderedFamily) : List (Bits × ZMod 2) :=
  (family.vectors.zip family.relation).map fun entry =>
    (Bits.ofBools entry.1, PauliVector.signBit entry.2)

/-- What the construction promises of a family. -/
structure BorderedFamily.Spans (family : BorderedFamily) (core : AlignedBitMatrix)
    (basis : List (List Bool)) : Prop where
  length_vectors : family.vectors.length = basis.length + 1
  length_relation : family.relation.length = basis.length + 1
  lengths : ∀ v ∈ family.vectors, v.length = core.rowCount
  borderedBasis : Transvection.BorderedBasis (coreForm core) family.entries
    (Transvection.spanOf (bitsOf basis))

theorem spans_borderedFamily (hsquare : core.columnCount = core.rowCount)
    (hclear : core.Clear) {size : ℕ} (hsize : basis.length = size)
    (hbasis : ∀ v ∈ basis, v.length = core.rowCount) (hrank : Transvection.FullRank (bitsOf basis))
    (hseparating : Transvection.RightSeparating (coreForm core) (spanOf (bitsOf basis))) :
    ∃ family, borderedFamily core basis = some family ∧ family.Spans core basis := by
  induction size using Nat.strong_induction_on generalizing basis with
  | h size ih =>
    cases hpick : familyPick core basis with
    | some pick =>
      obtain ⟨hlength, hmem, hunit⟩ := familyPick_eq_some hsquare hclear hbasis hpick
      obtain ⟨complement, hcomplement, hcount, hlengths, hspan⟩ :=
        rightOrthogonalComplement_spec hbasis hmem hunit hlength
      have hvalue : coreForm core (ofBools pick) (ofBools pick) = 1 := by
        rw [coreForm_ofBools hlength, hunit]
        rfl
      have hfull : Transvection.FullRank (bitsOf complement) := by
        refine hrank.rightOrthogonal hmem hvalue hspan ?_
        rw [bitsOf, bitsOf, length_map, length_map, hcount]
      obtain ⟨family, hfamily, hspans⟩ := ih complement.length (by omega) rfl hlengths hfull
        (hspan ▸ hseparating.rightOrthogonal hmem hvalue)
      refine ⟨{ vectors := pick :: family.vectors, relation := false :: family.relation }, ?_,
        ?_, ?_, fun v hv => ?_, ?_⟩
      · rw [borderedFamily, hpick]
        simp only
        split
        · rename_i hnone
          rw [hcomplement] at hnone
          cases hnone
        · rename_i other hother
          obtain rfl := Option.some.inj (hcomplement.symm.trans hother)
          rw [hfamily]
          rfl
      · rw [length_cons, hspans.length_vectors, hcount]
      · rw [length_cons, hspans.length_relation, hcount]
      · rcases mem_cons.mp hv with rfl | hv
        · exact hlength
        · exact hspans.lengths v hv
      · have hbordered := hspans.borderedBasis
        rw [hspan] at hbordered
        exact hbordered.peel hmem hvalue
    | none =>
      obtain ⟨vectors, hvectors, hcount, hlengths, hsimplex⟩ := simplex_symplecticSimplex hsize
        hbasis hrank (alternatingOn_of_familyPick hsquare hclear hbasis hpick) hseparating
      refine ⟨{ vectors := vectors, relation := List.replicate vectors.length true }, ?_,
        hcount.trans (by rw [hsize]), ?_, hlengths, ?_⟩
      · rw [borderedFamily, hpick]
        simp only [hvectors, Option.map_some]
      · rw [length_replicate, hcount, hsize]
      · have hentries : BorderedFamily.entries
            { vectors := vectors, relation := List.replicate vectors.length true } =
              (bitsOf vectors).map fun v => (v, 1) := by
          rw [BorderedFamily.entries, bitsOf, map_map]
          refine ext_getElem (by simp) fun i hi hi' => ?_
          simp only [getElem_map, getElem_zip, getElem_replicate]
          rfl
        rw [hentries]
        exact hsimplex.borderedBasis

theorem sum_signBit (relation : List Bool) :
    (relation.map signBit).sum = ((relation.filter id).length : ZMod 2) := by
  induction relation with
  | nil => rfl
  | cons bit relation ih =>
    rw [map_cons, sum_cons, ih]
    cases bit with
    | false => exact zero_add _
    | true =>
      rw [filter_cons_of_pos rfl, length_cons, Nat.cast_succ, add_comm]
      rfl

theorem foldl_relation (column : ℕ) (entries : List (List Bool × Bool)) (sum : Bool) :
    entries.foldl
      (fun sum (vector, selected) => sum ^^ (selected && vector.getD column false)) sum =
      (sum ^^ ((entries.map fun entry =>
        signBit entry.2 • ofBools entry.1).sum).index column) := by
  induction entries generalizing sum with
  | nil => rw [foldl_nil, map_nil, sum_nil, index_zero, Bool.xor_false]
  | cons entry entries ih =>
    rw [foldl_cons, ih, map_cons, sum_cons, index_add, Bool.xor_assoc, signBit_smul]
    cases entry.2 with
    | false => rw [if_neg Bool.false_ne_true, index_zero, Bool.false_and]
    | true => rw [if_pos rfl, index_ofBools, Bool.true_and]

theorem length_pivots_eq {g : ℕ → Bits} {pivots : List ℕ} (h : Bits.Reduced g pivots)
    (hspace : ∀ v, v ∈ rowSpace pivots.length g ↔ v.Below n) : pivots.length = n := by
  have hinjective : Set.InjOn (Bits.combine g) {t | t.Below pivots.length} := by
    intro s hs t ht hst
    rw [← h.coefficients_combine hs, hst, h.coefficients_combine ht]
  have himage : Bits.combine g '' {t | t.Below pivots.length} = {v | v.Below n} :=
    Set.ext fun v => hspace v
  have hcard := hinjective.ncard_image
  rw [himage, ncard_below, ncard_below] at hcard
  exact (Nat.pow_right_injective le_rfl hcard).symm

theorem mem_spanOf_standardBasis {v : Bits} :
    v ∈ spanOf (bitsOf (standardBasis n)) ↔ v.Below n := by
  refine ⟨fun hv => ?_, spanOf_standardBasis⟩
  have hle : spanOf (bitsOf (standardBasis n)) ≤ rowSpace n unit := by
    rw [bitsOf_standardBasis]
    refine spanOf_le.mpr fun u hu => ?_
    obtain ⟨i, hi, rfl⟩ := mem_map.mp hu
    exact row_mem_rowSpace _ (mem_range.mp hi)
  obtain ⟨t, ht, rfl⟩ := hle hv
  rwa [combine_units]

section Checks

variable {core : AlignedBitMatrix} {family : BorderedFamily} {basis : List (List Bool)}
  (h : family.Spans core basis)

include h

theorem BorderedFamily.Spans.map_entries : family.entries.map Prod.fst = bitsOf family.vectors ∧
      family.entries.map Prod.snd = family.relation.map signBit := by
  have hlength : family.vectors.length = family.relation.length :=
    h.length_vectors.trans h.length_relation.symm
  rw [BorderedFamily.entries, map_map, map_map]
  constructor
  · change (family.vectors.zip family.relation).map (ofBools ∘ Prod.fst) = _
    rw [← map_map, map_fst_zip hlength.le]
    rfl
  · change (family.vectors.zip family.relation).map (signBit ∘ Prod.snd) = _
    rw [← map_map, map_snd_zip hlength.ge]

theorem BorderedFamily.Spans.odd_relation : (family.relation.filter id).length % 2 = 1 := by
  have hodd := h.borderedBasis.odd
  rw [h.map_entries.2, sum_signBit, ZMod.natCast_eq_one_iff_odd] at hodd
  exact Nat.odd_iff.mp hodd

theorem BorderedFamily.Spans.relation_eq (column : ℕ) : (family.vectors.zip family.relation).foldl
      (fun sum (vector, selected) => sum ^^ (selected && vector.getD column false)) false =
        false := by
  have hrelation := h.borderedBasis.relation
  rw [BorderedFamily.entries, map_map] at hrelation
  change ((family.vectors.zip family.relation).map fun entry =>
    signBit entry.2 • ofBools entry.1).sum = 0 at hrelation
  rw [foldl_relation, hrelation, index_zero, Bool.false_xor]

theorem BorderedFamily.Spans.unitLower (hsquare : core.columnCount = core.rowCount)
    (hclear : core.Clear) {row column : ℕ} (hle : row ≤ column)
    (hcolumn : column < family.vectors.length) :
    ((gramMatrix core family.vectors core.rowCount).get row column ^^
      (family.relation.getD row false && family.relation.getD column false)) =
        decide (row = column) := by
  have hrow : row < family.vectors.length := lt_of_le_of_lt hle hcolumn
  have hcount : family.relation.length = family.vectors.length :=
    h.length_relation.trans h.length_vectors.symm
  have hentries : family.entries.length = family.vectors.length := by
    rw [BorderedFamily.entries, length_map, length_zip, hcount, Nat.min_self]
  have hentry : ∀ k (hk : k < family.vectors.length) (hk' : k < family.entries.length),
      family.entries[k] =
        (ofBools family.vectors[k], signBit (family.relation.getD k false)) := by
    intro k hk hk'
    simp only [BorderedFamily.entries, getElem_map, getElem_zip]
    rw [getD_eq_getElem _ _ (by omega)]
  have hgram := signBit_gramMatrix_getElem hsquare hclear h.lengths hrow hcolumn
  have hbordered := h.borderedBasis.bordered
  rcases eq_or_lt_of_le hle with rfl | hlt
  · have hunit := hbordered.unit _ (getElem_mem (l := family.entries) (n := row) (by omega))
    rw [hentry row hrow] at hunit
    rw [← hgram] at hunit
    rw [decide_eq_true rfl, ← signBit_eq_one, signBit_xor, hunit,
      Bool.and_self, add_assoc, ZModModule.add_self, add_zero]
  · have hpair := pairwise_iff_getElem.mp hbordered.orthogonal row column (by omega) (by omega)
      hlt
    rw [hentry row hrow, hentry column hcolumn, ← hgram] at hpair
    have hproduct : signBit (family.relation.getD row false &&
        family.relation.getD column false) =
          signBit (family.relation.getD row false) *
            signBit (family.relation.getD column false) := by
      cases family.relation.getD row false with
      | false => exact (zero_mul _).symm
      | true => exact (one_mul _).symm
    rw [decide_eq_false (Nat.ne_of_lt hlt), ← signBit_eq_zero, signBit_xor,
      hpair, hproduct, ZModModule.add_self]

theorem BorderedFamily.Spans.validate_eq (hsquare : core.columnCount = core.rowCount)
    (hclear : core.Clear) (hbasis : basis = standardBasis core.rowCount) :
    family.validate core = .ok () := by
  have hcount : basis.length = core.rowCount := by
    rw [hbasis, standardBasis, length_map, length_range]
  obtain ⟨pivots, hreduction⟩ := rowReduction_rowReduceWithTransform
    (vectorsToMatrix family.vectors core.rowCount)
  have hentries : (vectorsToMatrix family.vectors core.rowCount).entries =
    rowsOf family.vectors := by
    funext i
    rw [AlignedBitMatrix.entries, columnCount_vectorsToMatrix, row_vectorsToMatrix,
      low_eq_self (below_rowsOf h.lengths i)]
  have hrank : pivots.length = core.rowCount := by
    refine length_pivots_eq hreduction.reduced fun v => ?_
    rw [hreduction.rowSpace_eq, rowCount_vectorsToMatrix, hentries, rowSpace_rowsOf,
      ← h.map_entries.1, h.borderedBasis.spanOf_eq, hbasis, mem_spanOf_standardBasis]
  have hlower : ((List.range family.vectors.length).all fun row =>
      (List.range' row (family.vectors.length - row)).all fun column =>
        ((gramMatrix core family.vectors core.rowCount).get row column ^^
          (family.relation.getD row false && family.relation.getD column false)) ==
            decide (row = column)) = true := by
    rw [all_eq_true]
    intro row _
    rw [all_eq_true]
    intro column hcolumn
    obtain ⟨hle, hlt⟩ := mem_range'_sub.mp hcolumn
    rw [h.unitLower hsquare hclear hle hlt, beq_self_eq_true]
  have hlengths : (family.vectors.any fun vector => vector.length != core.rowCount) = false := by
    rw [any_eq_false]
    intro v hv
    simpa using h.lengths v hv
  have hvanishes : ((List.range core.rowCount).any fun column =>
      (family.vectors.zip family.relation).foldl
        (fun sum (vector, selected) => sum ^^ (selected && vector.getD column false)) false) =
          false := by
    rw [any_eq_false]
    intro column _
    rw [h.relation_eq]
    exact Bool.false_ne_true
  have hvectors : family.vectors.length = core.rowCount + 1 := by rw [h.length_vectors, hcount]
  have hrelation : family.relation.length = family.vectors.length :=
    h.length_relation.trans h.length_vectors.symm
  unfold BorderedFamily.validate
  simp only [hsquare, hrelation, hlengths, hlower, hvanishes, h.odd_relation,
    hreduction.rowCount_basis, hrank, ne_eq, not_true_eq_false, if_false, Bool.false_eq_true,
    Bool.not_true]
  rw [if_neg (not_not.mpr hvectors)]
  rfl

end Checks

variable {vector : List Bool}

theorem ofBools_dual (hvector : vector.length = 2 * n) :
    ofBools (vector.drop n ++ vector.take n) = exchange n (ofBools vector) := by
  refine ext_index fun i => ?_
  rw [index_ofBools, index_exchange, index_ofBools, swappedIndex,
    getD_eq_getElem?_getD, getD_eq_getElem?_getD, getElem?_append,
    length_drop, getElem?_drop, getElem?_take]
  have hlength : vector.length - n = n := by omega
  rw [hlength]
  rcases Nat.lt_or_ge i n with hi | hi
  · rw [if_pos hi, if_pos hi, decide_eq_true (by omega), Bool.true_and, Nat.add_comm]
  · rw [if_neg (Nat.not_lt.mpr hi), if_neg (Nat.not_lt.mpr hi)]
    rcases Nat.lt_or_ge i (2 * n) with hlt | hge
    · rw [if_pos (by omega), decide_eq_true hlt, Bool.true_and]
    · rw [if_neg (by omega), decide_eq_false (by omega), Bool.false_and]
      rfl

theorem row_foldl_setRow {m : AlignedBitMatrix} (condition : Bits → Bool) (f : Bits → Bits)
    {rows : ℕ} (hrows : rows ≤ m.rowCount) :
    let changed := (List.range rows).foldl
      (fun matrix row =>
        if condition (matrix.row row) then matrix.setRow row (f (matrix.row row)) else matrix) m
    (changed.rowCount = m.rowCount ∧ changed.columnCount = m.columnCount) ∧
      ∀ i, changed.row i =
        if i < rows ∧ condition (m.row i) = true then f (m.row i) else m.row i := by
  induction rows with
  | zero =>
    refine ⟨⟨rfl, rfl⟩, fun i => ?_⟩
    rfl
  | succ rows ih =>
    obtain ⟨⟨hcount, hcolumns⟩, hrow⟩ := ih (by omega)
    simp only [range_succ, foldl_append, foldl_cons, foldl_nil]
    generalize (List.range rows).foldl _ m = changed at hcount hcolumns hrow ⊢
    have hself : changed.row rows = m.row rows := by
      rw [hrow, if_neg fun h => Nat.lt_irrefl rows h.1]
    have hlt : ∀ i, i ≠ rows → (i < rows + 1 ↔ i < rows) := by
      intro i hi
      omega
    rw [hself]
    by_cases hcondition : condition (m.row rows) = true
    · rw [if_pos hcondition]
      refine ⟨⟨hcount, hcolumns⟩, fun i => ?_⟩
      rw [row_setRow (by omega), hrow]
      by_cases hi : i = rows
      · subst hi
        rw [if_pos rfl, if_pos ⟨Nat.lt_succ_self i, hcondition⟩]
      · simp only [if_neg hi, hlt i hi]
    · rw [if_neg hcondition]
      refine ⟨⟨hcount, hcolumns⟩, fun i => ?_⟩
      rw [hrow]
      by_cases hi : i = rows
      · subst hi
        rw [if_neg fun h => Nat.lt_irrefl i h.1, if_neg fun h => hcondition h.2]
      · simp only [hlt i hi]

theorem row_rightMultiplyTransvection (hvector : vector.length = 2 * n)
    (m : AlignedBitMatrix) : ((rightMultiplyTransvection n m vector).rowCount = m.rowCount ∧
      (rightMultiplyTransvection n m vector).columnCount = m.columnCount) ∧
        ∀ i, i < m.rowCount → (rightMultiplyTransvection n m vector).row i =
          along (symplecticForm n) (ofBools vector) (m.row i) := by
  obtain ⟨hshape, hrow⟩ := row_foldl_setRow (m := m)
    (fun row => Bits.dot row (ofBools (vector.drop n ++ vector.take n)))
    (fun row => row + ofBools vector) le_rfl
  refine ⟨hshape, fun i hi => (hrow i).trans ?_⟩
  rw [ofBools_dual hvector, along_apply, symplecticForm_apply, signBit_smul]
  by_cases hdot : Bits.dot (m.row i) (exchange n (ofBools vector)) = true
  · rw [if_pos ⟨hi, hdot⟩, if_pos hdot]
  · rw [if_neg fun h => hdot h.2, if_neg hdot, add_zero]

theorem row_foldl_rightMultiply
    (hvectors : ∀ v ∈ vectors, v.length = 2 * n) (m : AlignedBitMatrix) :
    ((vectors.foldl (rightMultiplyTransvection n) m).rowCount = m.rowCount ∧
      (vectors.foldl (rightMultiplyTransvection n) m).columnCount = m.columnCount) ∧
        ∀ i, i < m.rowCount → (vectors.foldl (rightMultiplyTransvection n) m).row i =
          (bitsOf vectors).foldl (fun y v => along (symplecticForm n) v y) (m.row i) := by
  induction vectors generalizing m with
  | nil => exact ⟨⟨rfl, rfl⟩, fun _ _ => rfl⟩
  | cons vector vectors ih =>
    obtain ⟨⟨hcount, hcolumns⟩, hrow⟩ :=
      row_rightMultiplyTransvection (hvectors vector mem_cons_self) m
    obtain ⟨⟨hcount', hcolumns'⟩, hrow'⟩ :=
      ih (fun v hv => hvectors v (mem_cons_of_mem vector hv))
        (rightMultiplyTransvection n m vector)
    refine ⟨⟨hcount'.trans hcount, hcolumns'.trans hcolumns⟩, fun i hi => ?_⟩
    rw [foldl_cons, hrow' i (hcount ▸ hi), hrow i hi]
    rfl

theorem ofBools_matrixRow (m : AlignedBitMatrix) (index length : ℕ) :
    ofBools (matrixRow m index length) = Bits.low length (m.row index) :=
  ofBools_map_range length (m.row index)

theorem any_id_of_ne_zero (h : ofBools vector ≠ 0) : vector.any id = true := by
  by_contra hany
  refine h (ext_index fun i => ?_)
  rw [index_ofBools, index_zero]
  rcases Nat.lt_or_ge i vector.length with hi | hi
  · rw [getD_eq_getElem _ _ hi]
    rw [Bool.not_eq_true, any_eq_false] at hany
    simpa using hany vector[i] (getElem_mem hi)
  · exact getD_eq_default _ _ hi

theorem not_triangularizable_of_congruenceTriangularize
    (h : congruenceTriangularize core = none) : ¬ Transvection.Triangularizable (coreForm core)
      (spanOf (bitsOf (standardBasis core.rowCount))) := by
  rw [congruenceTriangularize] at h
  split_ifs at h
  have hspec := triangularizeWithin_spec rfl (fun v hv => length_of_mem_standardBasis hv)
    (fullRank_standardBasis core.rowCount) (failureMemo_nil core)
  exact hspec.complete (Option.map_eq_none_iff.mp h)

section Decomposition

variable {action basis core : AlignedBitMatrix} {n rank : ℕ} (haction : IsSymplecticAction action n)
  (hcore : CoreOf action n basis rank core)

include haction hcore

theorem CoreOf.rightSeparating : Transvection.RightSeparating (coreForm core)
      (spanOf (bitsOf (standardBasis core.rowCount))) := by
  intro q hq hzero
  rw [mem_spanOf_standardBasis, hcore.rowCount_core] at hq
  obtain ⟨source, hform⟩ := hcore.residueForm
  refine hcore.eq_zero q hq (hform.lift_eq_zero haction.isometry (S := {v | v.Below (2 * n)})
    (U := {a | a.Below rank}) (fun x hx => hcore.cover x hx) haction.surjOn (fun hy => ?_)
    fun a ha => hzero a ?_)
  · exact eq_zero_of_symplecticForm (below_combine _ fun i _ => hcore.below_basis i) hy
  · rwa [mem_spanOf_standardBasis, hcore.rowCount_core]

theorem CoreOf.mulVec_eq_zero {v : Bits} (hv : v.Below rank) (hzero : core.mulVec v = 0) :
    v = 0 := by
  refine hcore.rightSeparating haction v ?_ fun u _ => ?_
  · rwa [mem_spanOf_standardBasis, hcore.rowCount_core]
  · rw [coreForm_apply, hzero, dot_zero_right]
    rfl

theorem CoreOf.exists_bordered (hnone : congruenceTriangularize core = none) :
    ∃ family vectors, borderedFamily core (standardBasis rank) = some family ∧
      family.validate core = .ok () ∧ borderedDecomposition core basis = some vectors ∧
        vectors.length = rank + 1 ∧ verifiesBorderedDecomposition action n rank vectors = true ∧
            ∀ x : Bits, x.Below (2 * n) → (bitsOf vectors).foldl
              (fun y v => along (symplecticForm n) v y) x = actionMap action x := by
  have hrank := hcore.rowCount_core
  have hsquare : core.columnCount = core.rowCount := hcore.columnCount_core.trans hrank.symm
  obtain ⟨family, hfamily, hspans⟩ := spans_borderedFamily hsquare hcore.clear_core rfl
    (fun v hv => length_of_mem_standardBasis hv) (fullRank_standardBasis core.rowCount)
    (hcore.rightSeparating haction)
  have hvalid := hspans.validate_eq hsquare hcore.clear_core rfl
  rw [hrank] at hfamily
  set defining := (vectorsToMatrix family.vectors rank).dot basis with hdefining
  have hcount : defining.rowCount = rank + 1 := by
    rw [hdefining, rowCount_dot, rowCount_vectorsToMatrix, hspans.length_vectors, standardBasis,
      length_map, length_range, hrank]
  set vectors := (List.range defining.rowCount).map fun row => matrixRow defining row (2 * n)
    with hvectors
  have hcandidate : borderedDecomposition core basis = some vectors := by
    have hisValid : family.isValid core = true := by rw [BorderedFamily.isValid, hvalid]
    simp only [borderedDecomposition, hfamily, Option.bind_eq_bind, Option.bind_some, hisValid,
      Bool.not_true, Bool.false_eq_true, if_false, hcore.columnCount_basis, hrank, hvectors,
      hdefining]
  have hlengths : ∀ v ∈ vectors, v.length = 2 * n := by
    intro v hv
    obtain ⟨row, _, rfl⟩ := mem_map.mp hv
    rw [matrixRow, length_map, length_range]
  -- The vectors are the lifts of the vectors of the family.
  have hbits : bitsOf vectors = family.entries.map fun p => combineMap basis.row p.1 := by
    change _ = family.entries.map (combineMap basis.row ∘ Prod.fst)
    rw [← map_map, hspans.map_entries.1]
    refine ext_getElem ?_ fun k hk hk' => ?_
    · simp only [bitsOf, hvectors, length_map, length_range, hcount,
        hspans.length_vectors, standardBasis, hrank]
    · have hkRow : k < family.vectors.length := by simpa [bitsOf] using hk'
      have hbelow : (ofBools family.vectors[k]).Below rank := by
        rw [← hrank]
        exact below_ofBools (hspans.lengths _ (getElem_mem hkRow)).le
      simp only [bitsOf, hvectors, getElem_map, getElem_range]
      rw [ofBools_matrixRow, hdefining, row_dot _ _ (by rwa [rowCount_vectorsToMatrix]),
        columnCount_vectorsToMatrix, row_vectorsToMatrix, rowsOf, getD_eq_getElem _ _ hkRow,
        low_eq_self hbelow, low_eq_self (below_combine _ fun i _ =>
          hcore.below_basis i)]
      rfl
  have hproduct : ∀ x : Bits, x.Below (2 * n) → (bitsOf vectors).foldl
      (fun y v => along (symplecticForm n) v y) x = actionMap action x := by
    intro x hx
    obtain ⟨source, hform⟩ := hcore.residueForm
    obtain ⟨b, _, hb⟩ := hcore.cover x hx
    rw [hbits, foldl_map]
    refine hform.foldl_along_eq (isAlt_symplecticForm n) haction.isometry hspans.borderedBasis
      (fun q hq => ?_) hb
    have hkernel : spanOf (family.entries.map Prod.fst) ≤
        LinearMap.ker ((coreForm core).flip q) := by
      refine spanOf_le.mpr fun v hv => ?_
      obtain ⟨p, hp, rfl⟩ := mem_map.mp hv
      exact hq p hp
    rw [hspans.borderedBasis.spanOf_eq] at hkernel
    refine hform.lift_eq_zero haction.isometry (S := {v | v.Below (2 * n)})
      (U := {a | a.Below rank}) (fun x hx => hcore.cover x hx) haction.surjOn (fun hy => ?_)
      fun a ha => ?_
    · exact eq_zero_of_symplecticForm (below_combine _ fun i _ => hcore.below_basis i) hy
    · refine hkernel ?_
      rwa [mem_spanOf_standardBasis, hrank]
  have hnonzero : ∀ v ∈ vectors, v.any id = true := by
    intro v hv
    refine any_id_of_ne_zero fun hzero => ?_
    have hmem : ofBools v ∈ bitsOf vectors := mem_map_of_mem hv
    rw [hbits] at hmem
    obtain ⟨p, hp, hpv⟩ := mem_map.mp hmem
    refine hspans.borderedBasis.ne_zero
      (not_triangularizable_of_congruenceTriangularize hnone) hp ?_
    have hspan := mem_spanOf (mem_map_of_mem (f := Prod.fst) hp)
    rw [hspans.borderedBasis.spanOf_eq, mem_spanOf_standardBasis, hrank] at hspan
    exact hcore.eq_zero _ hspan (hpv.trans hzero)
  refine ⟨family, vectors, hfamily, hvalid, hcandidate, ?_, ?_, hproduct⟩
  · rw [hvectors, length_map, length_range, hcount]
  · have hall : (vectors.any fun vector => vector.length != 2 * n || !vector.any id) = false := by
      rw [any_eq_false]
      intro v hv
      simp [hlengths v hv, hnonzero v hv]
    have hlength : vectors.length = rank + 1 := by rw [hvectors, length_map, length_range, hcount]
    obtain ⟨⟨hrows, hcolumns⟩, hrow⟩ := row_foldl_rightMultiply hlengths (identity (2 * n))
    rw [rowCount_identity] at hrows hrow
    simp only [verifiesBorderedDecomposition, hlength, hall, ne_eq, not_true_eq_false, decide_false,
      Bool.or_false, Bool.false_eq_true, if_false]
    rw [eq_eq_true_iff, haction.rowCount_eq, haction.columnCount_eq]
    refine ⟨hrows, hcolumns.trans (columnCount_identity _), fun i hi j hj => ?_⟩
    rw [hrows] at hi
    rw [hcolumns, columnCount_identity] at hj
    rw [AlignedBitMatrix.get, hrow i hi, row_identity hi, hproduct _ (below_unit.mpr hi),
      actionMap_unit, AlignedBitMatrix.entries, index_low, haction.columnCount_eq,
      decide_eq_true hj, Bool.true_and]
    rfl

end Decomposition

/-- The bordered construction never needs the search.  The core of every symplectic action is
invertible; when it is not triangularizable by congruence, a family is built that passes all checks,
its vectors are one more than the rank of the residue, their transvections multiply to the action,
and so they are returned whatever the search would do. -/
theorem borderedDecomposition_spec {action basis core : AlignedBitMatrix} {qubitCount rank : ℕ}
    (haction : IsSymplecticAction action qubitCount)
    (hresidue : residueCore action qubitCount = (basis, rank, core))
    (hnone : congruenceTriangularize core = none) :
    (∀ v : Bits, v.Below rank → core.mulVec v = 0 → v = 0) ∧
      ∃ family vectors, borderedFamily core (standardBasis rank) = some family ∧
        family.validate core = .ok () ∧ borderedDecomposition core basis = some vectors ∧
          vectors.length = rank + 1 ∧
          verifiesBorderedDecomposition action qubitCount rank vectors = true ∧
          (∀ x : Bits, x.Below (2 * qubitCount) → (bitsOf vectors).foldl
            (fun y v => Transvection.along (symplecticForm qubitCount) v y) x =
              actionMap action x) ∧
          (∀ decompose, verifiedDecompositionOrSearch decompose action qubitCount basis
            (borderedDecomposition core basis) = some vectors) ∧
          ∀ searches, minimalDecomposition (searches + 1) action qubitCount = some vectors := by
  have hcore := coreOf_residueCore haction
  rw [hresidue] at hcore
  obtain ⟨family, vectors, hfamily, hvalid, hcandidate, hlength, hverified, hproduct⟩ :=
    hcore.exists_bordered haction hnone
  have hreturned : ∀ decompose, verifiedDecompositionOrSearch decompose action qubitCount basis
      (borderedDecomposition core basis) = some vectors := by
    intro decompose
    have hfilter : (some vectors).filter
        (verifiesBorderedDecomposition action qubitCount basis.rowCount) = some vectors := by
      rw [Option.filter_some, hcore.rowCount_basis, if_pos hverified]
    rw [verifiedDecompositionOrSearch, hcandidate]
    simp only [hfilter]
  have hrank : rank ≠ 0 := by
    rintro rfl
    rw [congruenceTriangularize] at hnone
    simp only [hcore.rowCount_core, if_true] at hnone
    cases hnone
  refine ⟨fun v hv hzero => hcore.mulVec_eq_zero haction hv hzero, family, vectors, hfamily, hvalid,
    hcandidate, hlength, hverified, hproduct, hreturned, fun searches => ?_⟩
  rw [minimalDecomposition, hresidue]
  simp only [if_neg hrank, hnone]
  exact hreturned _

/-- The action that exchanges two qubits. -/
def swapAction : AlignedBitMatrix :=
  fromBlocks [⟨2⟩, ⟨1⟩, ⟨8⟩, ⟨4⟩] 4

theorem isSymplecticAction_swapAction : IsSymplecticAction swapAction 2 where
  rowCount_eq := rfl
  columnCount_eq := rfl
  form_eq := by decide +kernel

theorem borderedDecomposition_spec_swapAction :
    ∃ vectors, vectors.length = 3 ∧ minimalDecomposition 1 swapAction 2 = some vectors := by
  obtain ⟨_, _, vectors, _, _, _, hlength, _, _, _, hminimal⟩ :=
    borderedDecomposition_spec isSymplecticAction_swapAction
      (show residueCore swapAction 2 = ((residueCore swapAction 2).1, 2,
        (residueCore swapAction 2).2.2) from Prod.ext rfl (Prod.ext (by decide +kernel) rfl))
      (Option.isNone_iff_eq_none.mp (by decide +kernel))
  exact ⟨vectors, hlength, hminimal 0⟩

end TransvectionExact

end QdkEc
