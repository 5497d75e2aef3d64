import QdkEc.Binar.EchelonSolve
import QdkEc.Lib.BoolLists
import QdkEc.Lib.ColumnElimination
import QdkEc.Lib.PauliVector

/-!
# Triangularization by congruence

This module models the search for an ordered basis in which the form of a core
matrix is unit lower triangular.  The search picks a vector of length one, goes on
in its right-orthogonal complement, and remembers the spaces without such a basis
by the flattened rows of their reduced echelon form.
-/

namespace QdkEc

open List Bits Transvection AlignedBitMatrix PauliVector

namespace TransvectionExact

/-- The bitwise sum of two vectors. -/
def xorVectors (left right : List Bool) : List Bool :=
  List.zipWith xor left right

/-- The value of the bilinear form of a square matrix. -/
def bilinear (core : AlignedBitMatrix) (left right : List Bool) : Bool :=
  let dimension := core.rowCount
  (List.range dimension).foldl
    (fun acc i =>
      let row := (List.range dimension).foldl
        (fun inner j => inner ^^ (core.get i j && right.getD j false)) false
      acc ^^ (left.getD i false && row))
    false

/-- A counter over the coefficients of a basis, with the vector that they give. -/
structure SpanVectors where
  basis : List (List Bool)
  coefficients : List Bool
  current : List Bool
  exhausted : Bool

namespace SpanVectors

/-- The counter before the first vector. -/
def new (basis : List (List Bool)) : SpanVectors where
  basis := basis
  coefficients := List.replicate basis.length false
  current := List.replicate ((basis.head?.map List.length).getD 0) false
  exhausted := basis.isEmpty

/-- Toggle coefficients from the first one on until one is set. -/
def toggle : List (List Bool) → List Bool → List Bool → List Bool × List Bool × Bool
  | member :: basis, coefficient :: coefficients, current =>
    let current := xorVectors current member
    if !coefficient then (true :: coefficients, current, true)
    else
      let (coefficients, current, found) := toggle basis coefficients current
      (false :: coefficients, current, found)
  | _, coefficients, current => (coefficients, current, false)

def next (s : SpanVectors) : Option (List Bool) × SpanVectors :=
  if s.exhausted then (none, s)
  else
    let (coefficients, current, found) := toggle s.basis s.coefficients s.current
    if found then (some current, { s with coefficients := coefficients, current := current })
    else
      (none, { s with coefficients := coefficients, current := current, exhausted := true })

/-- The vectors up to a number of them. -/
def collect : ℕ → SpanVectors → List (List Bool)
  | 0, _ => []
  | count + 1, s =>
    match s.next with
    | (some vector, s) => vector :: collect count s
    | (none, _) => []

end SpanVectors

/-- The nonzero combinations of a basis. -/
def spanVectors (basis : List (List Bool)) : List (List Bool) :=
  (SpanVectors.new basis).collect (2 ^ basis.length)

/-- A basis of the vectors of a span that are right-orthogonal to a vector; `none` when all of them
are. -/
def rightOrthogonalComplement (core : AlignedBitMatrix) (pick : List Bool)
    (basis : List (List Bool)) :
    Option (List (List Bool)) := do
  let couplings := basis.map (bilinear core pick)
  let pivot ← couplings.findIdx? id
  some (((basis.zip couplings).eraseIdx pivot).map fun (vector, coupled) =>
    if coupled then xorVectors vector (basis.getD pivot []) else vector)

/-- Exchange two entries of a list. -/
def swapEntries (rows : List (List Bool)) (i j : ℕ) : List (List Bool) :=
  (rows.set i (rows.getD j [])).set j (rows.getD i [])

/-- Bring one column of the rows into reduced form. -/
def reduceColumn (state : List (List Bool) × ℕ) (column : ℕ) : List (List Bool) × ℕ :=
  let (rows, pivot) := state
  match (List.range' pivot (rows.length - pivot)).find? fun row =>
      (rows.getD row []).getD column false with
  | none => (rows, pivot)
  | some selected =>
    let rows := swapEntries rows pivot selected
    let reference := rows.getD pivot []
    (rows.mapIdx fun row vector =>
      if row ≠ pivot && vector.getD column false then xorVectors vector reference
      else vector, pivot + 1)

/-- The flattened rows of the reduced echelon form. -/
def subspaceKey (basis : List (List Bool)) (dimension : ℕ) : List Bool :=
  let (rows, pivot) := (List.range dimension).foldl reduceColumn (basis, 0)
  (rows.take pivot).flatten

/-- The form is symmetric with a zero diagonal on the basis. -/
def isAlternating (core : AlignedBitMatrix) (basis : List (List Bool)) : Bool :=
  basis.zipIdx.all fun (vector, index) =>
    !bilinear core vector vector && (basis.take index).all fun other =>
      bilinear core vector other == bilinear core other vector

/-- Try the picks in order; complements that failed before are skipped. -/
def explorePicks (core : AlignedBitMatrix) (dimension : ℕ)
    (search : List (List Bool) → List (List Bool) →
      Option (List (List Bool)) × List (List Bool))
    (basis : List (List Bool)) :
    List (List Bool) → List (List Bool) → List (List Bool) →
      Option (List (List Bool)) × List (List Bool)
  | [], _, unsolvable => (none, unsolvable)
  | pick :: picks, explored, unsolvable =>
    if !bilinear core pick pick then
      explorePicks core dimension search basis picks explored unsolvable
    else
      match rightOrthogonalComplement core pick basis with
      | none => explorePicks core dimension search basis picks explored unsolvable
      | some complement =>
        let complementKey := subspaceKey complement dimension
        if complementKey ∈ explored then
          explorePicks core dimension search basis picks explored unsolvable
        else
          match search complement unsolvable with
          | (some rest, unsolvable) => (some (pick :: rest), unsolvable)
          | (none, unsolvable) =>
            explorePicks core dimension search basis picks (complementKey :: explored)
              unsolvable

/-- The search on a basis with the given number of vectors. -/
def triangularizeWithin (core : AlignedBitMatrix) (dimension : ℕ) :
    ℕ → List (List Bool) → List (List Bool) → Option (List (List Bool)) × List (List Bool)
  | 0, _, unsolvable => (some [], unsolvable)
  | size + 1, basis, unsolvable =>
    let key := subspaceKey basis dimension
    if key ∈ unsolvable then (none, unsolvable)
    else if isAlternating core basis then (none, key :: unsolvable)
    else
      match explorePicks core dimension (triangularizeWithin core dimension size) basis
          (spanVectors basis) [] unsolvable with
      | (some picks, unsolvable) => (some picks, unsolvable)
      | (none, unsolvable) => (none, key :: unsolvable)

/-- An ordered basis of the span of a basis in which each vector has length one and is
right-orthogonal to all later ones, with the spaces that are known to have none. -/
def triangularizeSubspace (core : AlignedBitMatrix) (basis : List (List Bool)) (dimension : ℕ)
    (unsolvable : List (List Bool)) :
    Option (List (List Bool)) × List (List Bool) :=
  triangularizeWithin core dimension basis.length basis unsolvable

def vectorsToMatrix (vectors : List (List Bool)) (columns : ℕ) : AlignedBitMatrix :=
  vectors.zipIdx.foldl
    (fun matrix (vector, row) => vector.zipIdx.foldl
      (fun matrix (bit, column) => if bit then matrix.set row column true else matrix) matrix)
    (AlignedBitMatrix.zeros vectors.length columns)

/-- The coordinate vectors. -/
def standardBasis (dimension : ℕ) : List (List Bool) :=
  (List.range dimension).map fun index =>
    (List.range dimension).map fun column => column == index

/-- A matrix by which the congruent core is unit lower triangular; `none` when there is none. -/
def congruenceTriangularize (core : AlignedBitMatrix) : Option AlignedBitMatrix :=
  let dimension := core.rowCount
  if dimension = 0 then some (AlignedBitMatrix.zeros 0 0)
  else
    (triangularizeSubspace core (standardBasis dimension) dimension []).1.map fun picks =>
      vectorsToMatrix picks dimension

/-- The vectors of a list as bit sets. -/
def bitsOf (vectors : List (List Bool)) : List Bits :=
  vectors.map Bits.ofBools

def coreForm (core : AlignedBitMatrix) : LinearMap.BilinForm (ZMod 2) Bits :=
  Transvection.formOfAdditive
    (fun u v => PauliVector.signBit (Bits.dot u (core.mulVec v)))
    (fun u v w => by rw [dot_add_left, signBit_xor])
    (fun u v w => by
      rw [show core.mulVec (v + w) = core.mulVec v + core.mulVec w from map_add core.mulVecHom v w,
        dot_add_right, signBit_xor])

theorem coreForm_apply (core : AlignedBitMatrix) (u v : Bits) :
    coreForm core u v = signBit (Bits.dot u (core.mulVec v)) :=
  rfl

variable {left right : List Bool} {n : ℕ}

theorem length_xorVectors (hleft : left.length = n) (hright : right.length = n) :
    (xorVectors left right).length = n := by
  rw [xorVectors, length_zipWith, hleft, hright, Nat.min_self]

theorem ofBools_xorVectors (hleft : left.length = n) (hright : right.length = n) :
    ofBools (xorVectors left right) = ofBools left + ofBools right :=
  ofBools_zipWith_xor (hleft.trans hright.symm)

variable {core : AlignedBitMatrix} {basis picks unsolvable : List (List Bool)}

theorem coreForm_ofBools (hright : right.length = core.rowCount) :
    coreForm core (ofBools left) (ofBools right) = signBit (bilinear core left right) := by
  have hrow : ∀ i, i < core.rowCount → (List.range core.rowCount).foldl
      (fun inner j => inner ^^ (core.get i j && right.getD j false)) false =
        (core.mulVec (ofBools right)).index i := by
    intro i _
    rw [index_mulVec, dot_comm,
      foldl_xor_range core.rowCount _ (ofBools right) (core.row i) fun j _ => by
        rw [index_ofBools, Bool.and_comm, AlignedBitMatrix.get],
      low_eq_self (below_ofBools hright.le)]
  have hbelow : (core.mulVec (ofBools right)).Below core.rowCount := by
    rw [below_iff]
    intro i hi
    rw [index_mulVec, row_of_le hi, dot_zero_left]
  rw [coreForm_apply]
  congr 1
  rw [dot_comm, bilinear, ← low_eq_self hbelow]
  rw [foldl_xor_range core.rowCount _ (core.mulVec (ofBools right))
    (ofBools left) fun i hi => by rw [hrow i hi, index_ofBools, Bool.and_comm]]

def combination : List (List Bool) → List Bool → Bits
  | member :: basis, coefficient :: coefficients =>
    (if coefficient then Bits.ofBools member else 0) + combination basis coefficients
  | _, _ => 0

/-- The number that the coefficients count. -/
def count : List Bool → ℕ
  | [] => 0
  | coefficient :: coefficients => coefficient.toNat + 2 * count coefficients

theorem count_injective {c d : List Bool} (hlength : c.length = d.length) (h : count c = count d) :
    c = d := by
  induction c generalizing d with
  | nil => exact (length_eq_zero_iff.mp hlength.symm).symm
  | cons a c ih =>
    obtain ⟨b, d, rfl⟩ := exists_cons_of_length_eq_add_one hlength.symm
    rw [count, count] at h
    rw [length_cons, length_cons] at hlength
    have hbit : a = b := by
      cases a <;> cases b <;> simp only [Bool.toNat_true, Bool.toNat_false] at h <;>
        first | rfl | omega
    subst hbit
    have hrest : c.length = d.length := by omega
    rw [ih hrest (by omega)]

theorem count_lt (c : List Bool) : count c < 2 ^ c.length := by
  induction c with
  | nil => exact Nat.one_pos
  | cons a c ih =>
    have hbit := Bool.toNat_le a
    rw [count, length_cons, Nat.pow_succ]
    omega

theorem combination_replicate (basis : List (List Bool)) :
    combination basis (List.replicate basis.length false) = 0 := by
  induction basis with
  | nil => rfl
  | cons member basis ih =>
    rw [length_cons, replicate_succ, combination, ih, add_zero]
    rfl

theorem count_replicate (n : ℕ) : count (List.replicate n false) = 0 := by
  induction n with
  | zero => rfl
  | succ n ih =>
    rw [replicate_succ, count, ih]
    rfl

theorem mem_spanOf_bitsOf {u : Bits} : u ∈ spanOf (bitsOf basis) ↔
      ∃ c : List Bool, c.length = basis.length ∧ combination basis c = u := by
  induction basis generalizing u with
  | nil =>
    rw [bitsOf, map_nil, spanOf_nil, Submodule.mem_bot]
    constructor
    · rintro rfl
      exact ⟨[], rfl, rfl⟩
    · rintro ⟨c, _, rfl⟩
      rfl
  | cons member basis ih =>
    change u ∈ spanOf (ofBools member :: bitsOf basis) ↔ _
    rw [spanOf_cons, Submodule.mem_sup]
    constructor
    · rintro ⟨a, ha, b, hb, rfl⟩
      obtain ⟨c, hc, rfl⟩ := ih.mp hb
      obtain ⟨k, rfl⟩ := Submodule.mem_span_singleton.mp ha
      rcases scalar_cases k with rfl | rfl
      · refine ⟨false :: c, by rw [length_cons, length_cons, hc], ?_⟩
        rfl
      · refine ⟨true :: c, by rw [length_cons, length_cons, hc], ?_⟩
        rw [combination, one_smul]
        rfl
    · rintro ⟨c, hc, rfl⟩
      obtain ⟨a, c, rfl⟩ := exists_cons_of_length_eq_add_one hc
      rw [length_cons, length_cons] at hc
      refine ⟨if a then ofBools member else 0, ?_, combination basis c,
        ih.mpr ⟨c, by omega, rfl⟩, rfl⟩
      split_ifs
      · exact Submodule.mem_span_singleton_self _
      · exact Submodule.zero_mem _

namespace SpanVectors

/-- What toggling the coefficients does. -/
structure Toggled (n : ℕ) (basis : List (List Bool)) (coefficients current : List Bool)
    (toggled : List Bool × List Bool × Bool) :
    Prop where
  length_eq : toggled.1.length = coefficients.length
  length_current : toggled.2.1.length = n
  current_eq : Bits.ofBools toggled.2.1 + combination basis toggled.1 =
    Bits.ofBools current + combination basis coefficients
  count_eq : if toggled.2.2 then count toggled.1 = count coefficients + 1
    else count coefficients + 1 = 2 ^ coefficients.length

theorem toggled_toggle {basis : List (List Bool)} (hbasis : ∀ v ∈ basis, v.length = n)
    {coefficients current : List Bool} (hlength : coefficients.length = basis.length)
    (hcurrent : current.length = n) :
    Toggled n basis coefficients current (toggle basis coefficients current) := by
  induction basis generalizing coefficients current with
  | nil =>
    obtain rfl := length_eq_zero_iff.mp hlength
    exact ⟨rfl, hcurrent, rfl, rfl⟩
  | cons member basis ih =>
    obtain ⟨a, c, rfl⟩ := exists_cons_of_length_eq_add_one hlength
    have hrest : c.length = basis.length := by
      rw [length_cons, length_cons] at hlength
      omega
    have hmember := hbasis member mem_cons_self
    have hxor := length_xorVectors hcurrent hmember
    have hbits := ofBools_xorVectors hcurrent hmember
    cases a with
    | false =>
      refine ⟨rfl, hxor, ?_, ?_⟩
      · change ofBools (xorVectors current member) +
          (ofBools member + combination basis c) =
            ofBools current + (0 + combination basis c)
        rw [hbits, zero_add, add_assoc, add_add_cancel_left]
      · change 1 + 2 * count c = 0 + 2 * count c + 1
        omega
    | true =>
      have h := ih (fun v hv => hbasis v (mem_cons_of_mem _ hv)) hrest hxor
      have htoggle : toggle (member :: basis) (true :: c) current =
          (false :: (toggle basis c (xorVectors current member)).1,
            (toggle basis c (xorVectors current member)).2.1,
            (toggle basis c (xorVectors current member)).2.2) := rfl
      rw [htoggle]
      generalize toggle basis c (xorVectors current member) = toggled at h
      refine ⟨by simp [h.length_eq], h.length_current, ?_, ?_⟩
      · change ofBools toggled.2.1 + (0 + combination basis toggled.1) =
          ofBools current + (ofBools member + combination basis c)
        rw [zero_add, h.current_eq, hbits, add_assoc]
      · have hcount := h.count_eq
        change if toggled.2.2 then 0 + 2 * count toggled.1 = 1 + 2 * count c + 1
          else 1 + 2 * count c + 1 = 2 ^ (c.length + 1)
        split_ifs at hcount ⊢ <;> omega

/-- The counter yields the combinations behind its coefficients. -/
theorem mem_collect {s : SpanVectors} (hbasis : ∀ v ∈ s.basis, v.length = n)
    (hlength : s.coefficients.length = s.basis.length) (hcurrent : s.current.length = n)
    (hbits : ofBools s.current = combination s.basis s.coefficients)
    (hrunning : s.exhausted = false) {fuel : ℕ}
    (hfuel : 2 ^ s.basis.length ≤ count s.coefficients + fuel) :
    (∀ v ∈ s.collect fuel, v.length = n ∧ ofBools v ∈ spanOf (bitsOf s.basis)) ∧
      ∀ c : List Bool, c.length = s.basis.length → count s.coefficients < count c →
        ∃ v ∈ s.collect fuel, ofBools v = combination s.basis c := by
  induction fuel generalizing s with
  | zero =>
    have hlt := count_lt s.coefficients
    rw [hlength] at hlt
    omega
  | succ fuel ih =>
    have h := toggled_toggle hbasis hlength hcurrent
    have hnext : s.next = if (toggle s.basis s.coefficients s.current).2.2 then
        (some (toggle s.basis s.coefficients s.current).2.1, { s with
            coefficients := (toggle s.basis s.coefficients s.current).1
            current := (toggle s.basis s.coefficients s.current).2.1 })
        else (none, { s with
            coefficients := (toggle s.basis s.coefficients s.current).1
            current := (toggle s.basis s.coefficients s.current).2.1
            exhausted := true }) := by
      rw [next, hrunning]
      rfl
    generalize toggle s.basis s.coefficients s.current = toggled at h hnext
    have hlengthToggled := h.length_eq.trans hlength
    have hcurrentEq : ofBools toggled.2.1 = combination s.basis toggled.1 := by
      have hsum := h.current_eq
      rw [hbits, add_self] at hsum
      exact add_eq_zero_iff.mp hsum
    have hcount := h.count_eq
    cases hfound : toggled.2.2 with
    | false =>
      rw [hfound, if_neg (by decide)] at hcount hnext
      have hcollect : s.collect (fuel + 1) = [] := by rw [collect, hnext]
      rw [hcollect]
      refine ⟨by simp, fun c hc hlt => ?_⟩
      have hbound := count_lt c
      rw [hc] at hbound
      rw [hlength] at hcount
      omega
    | true =>
      rw [hfound, if_pos rfl] at hcount hnext
      have hcollect : s.collect (fuel + 1) = toggled.2.1 ::
          collect fuel { s with coefficients := toggled.1, current := toggled.2.1 } := by
        rw [collect, hnext]
      obtain ⟨hmem, hall⟩ := ih (s := { s with
        coefficients := toggled.1, current := toggled.2.1 }) hbasis hlengthToggled
        h.length_current hcurrentEq hrunning
          (show 2 ^ s.basis.length ≤ count toggled.1 + fuel by omega)
      rw [hcollect]
      refine ⟨fun v hv => ?_, fun c hc hlt => ?_⟩
      · rcases mem_cons.mp hv with rfl | hv
        · exact ⟨h.length_current, mem_spanOf_bitsOf.mpr ⟨_, hlengthToggled, hcurrentEq.symm⟩⟩
        · exact hmem v hv
      · by_cases heq : count c = count toggled.1
        · have hsame := count_injective (hc.trans hlengthToggled.symm) heq
          exact ⟨toggled.2.1, mem_cons_self, by rw [hcurrentEq, hsame]⟩
        · obtain ⟨v, hv, hvc⟩ := hall c hc (show count toggled.1 < count c by omega)
          exact ⟨v, mem_cons_of_mem _ hv, hvc⟩

end SpanVectors

theorem spanVectors_spec (hbasis : ∀ v ∈ basis, v.length = n)
    (hne : basis ≠ []) : (∀ v ∈ spanVectors basis, v.length = n ∧
        ofBools v ∈ spanOf (bitsOf basis)) ∧ ∀ u ∈ spanOf (bitsOf basis), u ≠ 0 →
        ∃ v ∈ spanVectors basis, ofBools v = u := by
  obtain ⟨first, rest, rfl⟩ := exists_cons_of_ne_nil hne
  have hcurrent : (SpanVectors.new (first :: rest)).current = List.replicate n false := by
    simp [SpanVectors.new, hbasis first mem_cons_self]
  have hzero : ofBools (List.replicate n false) = 0 := by
    refine ext_index fun i => ?_
    rw [index_ofBools, index_zero]
    simp
  obtain ⟨hmem, hall⟩ := SpanVectors.mem_collect (s := SpanVectors.new (first :: rest)) hbasis
    (by simp [SpanVectors.new]) (by rw [hcurrent, length_replicate])
    (by rw [hcurrent, hzero]; exact (combination_replicate (first :: rest)).symm) rfl
    (Nat.le_add_left (2 ^ (first :: rest).length) _)
  refine ⟨hmem, fun u hu hne => ?_⟩
  obtain ⟨c, hc, rfl⟩ := mem_spanOf_bitsOf.mp hu
  have hstart : count (SpanVectors.new (first :: rest)).coefficients = 0 := count_replicate _
  refine hall c hc ?_
  rw [hstart, Nat.pos_iff_ne_zero]
  intro hcount
  have hzeros := count_injective (hc.trans length_replicate.symm)
    (hcount.trans (count_replicate _).symm)
  exact hne (by rw [hzeros, combination_replicate])

variable {pick : List Bool}

section Form

variable {core : AlignedBitMatrix} {basis : List (List Bool)}
  (hbasis : ∀ v ∈ basis, v.length = core.rowCount)

include hbasis

theorem rightOrthogonalComplement_spec (hpick : ofBools pick ∈ spanOf (bitsOf basis))
    (hunit : bilinear core pick pick = true) (hlength : pick.length = core.rowCount) :
    ∃ complement, rightOrthogonalComplement core pick basis = some complement ∧
      complement.length + 1 = basis.length ∧ (∀ v ∈ complement, v.length = core.rowCount) ∧
        spanOf (bitsOf complement) = rightOrthogonal (coreForm core) (ofBools pick)
            (spanOf (bitsOf basis)) := by
  have hvalue : ∀ v ∈ basis, coreForm core (ofBools pick) (ofBools v) =
      signBit (bilinear core pick v) := fun v hv => coreForm_ofBools (hbasis v hv)
  -- A vector of length one is coupled to some vector of every basis of the span.
  obtain ⟨coupled, hcoupledMem, hcoupled⟩ : ∃ v ∈ basis, bilinear core pick v = true := by
    by_contra hnone
    push Not at hnone
    have hle : spanOf (bitsOf basis) ≤
        LinearMap.ker (coreForm core (ofBools pick)) := by
      refine spanOf_le.mpr fun u hu => ?_
      obtain ⟨v, hv, rfl⟩ := mem_map.mp hu
      have hfalse : bilinear core pick v = false := by simpa using hnone v hv
      rw [LinearMap.mem_ker, hvalue v hv, hfalse]
      rfl
    have hzero := hle hpick
    rw [LinearMap.mem_ker, coreForm_ofBools hlength, hunit] at hzero
    exact one_ne_zero hzero
  obtain ⟨pivot, hfind⟩ : ∃ pivot, (basis.map (bilinear core pick)).findIdx? id = some pivot := by
    rw [← Option.isSome_iff_exists, findIdx?_isSome, any_eq_true]
    exact ⟨true, mem_map.mpr ⟨coupled, hcoupledMem, hcoupled⟩, rfl⟩
  obtain ⟨hpivot, hbit, _⟩ := findIdx?_eq_some_iff_getElem.mp hfind
  rw [length_map] at hpivot
  rw [getElem_map, id] at hbit
  have hpivotLength := hbasis _ (getElem_mem hpivot)
  set p := basis[pivot] with hp
  have herase : (basis.zip (basis.map (bilinear core pick))).eraseIdx pivot =
      (basis.eraseIdx pivot).map fun v => (v, bilinear core pick v) := by
    rw [zip_eq_zipWith, zipWith_map_right, zipWith_self, eraseIdx_map]
  have hmem : ∀ v ∈ basis.eraseIdx pivot, v.length = core.rowCount :=
    fun v hv => hbasis v (mem_of_mem_eraseIdx hv)
  refine ⟨(basis.eraseIdx pivot).map fun v => if bilinear core pick v then xorVectors v p else v,
    ?_, ?_, ?_, ?_⟩
  · rw [rightOrthogonalComplement, hfind]
    simp only [Option.bind_eq_bind, Option.bind_some, herase, map_map, getD_eq_getElem _ _ hpivot]
    rfl
  · rw [length_map, length_eraseIdx_add_one hpivot]
  · intro v hv
    obtain ⟨w, hw, rfl⟩ := mem_map.mp hv
    split_ifs
    · exact length_xorVectors (hmem w hw) hpivotLength
    · exact hmem w hw
  · have hperm : (ofBools p :: bitsOf (basis.eraseIdx pivot)).Perm (bitsOf basis) :=
      (getElem_cons_eraseIdx_perm hpivot).map ofBools
    have hpBit : coreForm core (ofBools pick) (ofBools p) = 1 := by
      rw [coreForm_ofBools hpivotLength, hbit]
      rfl
    rw [← spanOf_perm hperm, ← spanOf_map_coupled hpBit]
    congr 1
    rw [bitsOf, bitsOf, map_map, map_map]
    refine map_congr_left fun v hv => ?_
    change ofBools (if bilinear core pick v then xorVectors v p else v) =
      ofBools v + coreForm core (ofBools pick) (ofBools v) • ofBools p
    rw [coreForm_ofBools (hmem v hv)]
    cases bilinear core pick v with
    | false =>
      rw [show signBit false = 0 from rfl, zero_smul, add_zero]
      rfl
    | true =>
      rw [show signBit true = 1 from rfl, one_smul, if_pos rfl,
        ofBools_xorVectors (hmem v hv) hpivotLength]

theorem not_triangularizable_of_isAlternating (hrank : Transvection.FullRank (bitsOf basis))
    (hne : basis ≠ []) (halternating : isAlternating core basis = true) :
    ¬ Transvection.Triangularizable (coreForm core) (spanOf (bitsOf basis)) := by
  have hall : ∀ i (hi : i < basis.length), bilinear core basis[i] basis[i] = false ∧
      ∀ j (hj : j < i), bilinear core basis[i] basis[j] = bilinear core basis[j] basis[i] := by
    intro i hi
    rw [isAlternating, all_eq_true] at halternating
    have hentry := halternating (basis[i], i) (by
      rw [mem_zipIdx_iff_getElem?]
      exact getElem?_eq_getElem hi)
    rw [Bool.and_eq_true, Bool.not_eq_true', all_eq_true] at hentry
    refine ⟨hentry.1, fun j hj => ?_⟩
    have hother := hentry.2 basis[j] (mem_take_iff_getElem.mpr ⟨j, by omega, rfl⟩)
    simpa using hother
  have hsymm : ∀ v ∈ basis, ∀ w ∈ basis, bilinear core v w = bilinear core w v := by
    intro v hv w hw
    obtain ⟨i, hi, rfl⟩ := mem_iff_getElem.mp hv
    obtain ⟨j, hj, rfl⟩ := mem_iff_getElem.mp hw
    rcases Nat.lt_trichotomy i j with hlt | rfl | hlt
    · exact ((hall j hj).2 i hlt).symm
    · rfl
    · exact (hall i hi).2 j hlt
  refine (alternatingOn_spanOf (fun u hu => ?_) fun u hu w hw => ?_).not_triangularizable
    (hrank.spanOf_ne_bot (by simpa [bitsOf] using hne))
  · obtain ⟨v, hv, rfl⟩ := mem_map.mp hu
    obtain ⟨i, hi, rfl⟩ := mem_iff_getElem.mp hv
    rw [coreForm_ofBools (hbasis _ hv), (hall i hi).1]
    rfl
  · obtain ⟨v, hv, rfl⟩ := mem_map.mp hu
    obtain ⟨v', hv', rfl⟩ := mem_map.mp hw
    rw [coreForm_ofBools (hbasis _ hv'), coreForm_ofBools (hbasis _ hv), hsymm v hv v' hv']

end Form

/-- The rows of a list as bit sets, with zero rows behind the last one. -/
def rowsOf (rows : List (List Bool)) : ℕ → Bits := fun i =>
  Bits.ofBools (rows.getD i [])

variable {rows : List (List Bool)}

theorem rowsOf_of_le {i : ℕ} (hi : rows.length ≤ i) : rowsOf rows i = 0 := by
  rw [rowsOf, getD_eq_default _ _ hi, ofBools_nil]

theorem rowSpace_rowsOf (rows : List (List Bool)) :
    rowSpace rows.length (rowsOf rows) = spanOf (bitsOf rows) := by
  refine le_antisymm (rowSpace_le.mpr fun i hi => ?_) (spanOf_le.mpr fun u hu => ?_)
  · rw [rowsOf, getD_eq_getElem _ _ hi]
    exact mem_spanOf (mem_map_of_mem (getElem_mem hi))
  · obtain ⟨v, hv, rfl⟩ := mem_map.mp hu
    obtain ⟨i, hi, rfl⟩ := mem_iff_getElem.mp hv
    have hrow := row_mem_rowSpace (rowsOf rows) hi
    rwa [rowsOf, getD_eq_getElem _ _ hi] at hrow

/-- The rows after some columns are reduced and span what the basis spans. -/
structure ReducedRows (basis : List (List Bool)) (dimension column : ℕ)
    (state : List (List Bool) × ℕ) (pivots : List ℕ) :
    Prop where
  length_pivots : pivots.length = state.2
  le_length : state.2 ≤ state.1.length
  length_rows : ∀ v ∈ state.1, v.length = dimension
  reduced : Bits.ReducedBefore (rowsOf state.1) pivots column
  rowSpace_eq : Bits.rowSpace state.1.length (rowsOf state.1) =
    Transvection.spanOf (bitsOf basis)

theorem length_swapEntries (rows : List (List Bool)) (i j : ℕ) :
    (swapEntries rows i j).length = rows.length := by
  rw [swapEntries, length_set, length_set]

theorem getD_swapEntries {i j : ℕ} (hi : i < rows.length) (hj : j < rows.length) (k : ℕ) :
    (swapEntries rows i j).getD k [] = rows.getD (Equiv.swap i j k) [] := by
  rw [Equiv.swap_apply_def, swapEntries, getD_eq_getElem?_getD, getElem?_set,
    length_set, getElem?_set]
  by_cases hkj : k = j
  · subst hkj
    rw [if_pos rfl, if_pos hj]
    by_cases hki : k = i
    · rw [if_pos hki, ← hki]
      rfl
    · rw [if_neg hki, if_pos rfl]
      rfl
  · rw [if_neg (Ne.symm hkj)]
    by_cases hki : k = i
    · subst hki
      rw [if_pos rfl, if_pos rfl, if_pos hi]
      rfl
    · rw [if_neg (Ne.symm hki), if_neg hki, if_neg hkj, getD_eq_getElem?_getD]

variable {dimension : ℕ}

theorem rowsOf_eliminated
    (hrows : ∀ v ∈ rows, v.length = dimension) {pivot selected : ℕ} (hpivot : pivot < rows.length)
    (hselected : selected < rows.length) (column : ℕ) :
    let swapped := swapEntries rows pivot selected
    let cleared := swapped.mapIdx fun row vector =>
      if row ≠ pivot && vector.getD column false then xorVectors vector (swapped.getD pivot [])
      else vector
    (cleared.length = rows.length ∧ ∀ v ∈ cleared, v.length = dimension) ∧
      rowsOf cleared = eliminateWith (rowsOf rows) pivot selected column := by
  intro swapped cleared
  have hlength : swapped.length = rows.length := length_swapEntries rows pivot selected
  have hread : ∀ i, swapped.getD i [] = rows.getD (Equiv.swap pivot selected i) [] :=
    getD_swapEntries hpivot hselected
  have hentry : ∀ i, i < rows.length → (swapped.getD i []).length = dimension := by
    intro i hi
    have hswap : Equiv.swap pivot selected i < rows.length := by
      rw [Equiv.swap_apply_def]
      split_ifs <;> assumption
    rw [hread, getD_eq_getElem _ _ hswap]
    exact hrows _ (getElem_mem _)
  have hcleared : ∀ i, i < rows.length → cleared[i]? =
      some (if i ≠ pivot && (swapped.getD i []).getD column false then
        xorVectors (swapped.getD i []) (swapped.getD pivot [])
      else swapped.getD i []) := by
    intro i hi
    have hi' : i < swapped.length := by omega
    simp only [cleared, getElem?_mapIdx, getElem?_eq_getElem hi', Option.map_some,
      getD_eq_getElem swapped [] hi']
  have hclearedLength : cleared.length = rows.length := by
    simp only [cleared, length_mapIdx, hlength]
  refine ⟨⟨hclearedLength, fun v hv => ?_⟩, funext fun i => ?_⟩
  · obtain ⟨i, hi⟩ := mem_iff_getElem?.mp hv
    have hlt : i < rows.length := by
      rw [← hclearedLength]
      exact (List.getElem?_eq_some_iff.mp hi).1
    rw [hcleared i hlt, Option.some_inj] at hi
    rw [← hi]
    split_ifs
    · exact length_xorVectors (hentry i hlt) (hentry pivot hpivot)
    · exact hentry i hlt
  · rcases Nat.lt_or_ge i rows.length with hi | hi
    · have hbit : (swapped.getD i []).getD column false =
          (rowsOf rows (Equiv.swap pivot selected i)).index column := by
        rw [hread, rowsOf, index_ofBools]
      have hselectedRow : swapped.getD pivot [] = rows.getD selected [] := by
        rw [hread, Equiv.swap_apply_left]
      rw [rowsOf, getD_eq_getElem?_getD, hcleared i hi, Option.getD_some, hbit, eliminateWith]
      simp only [Bool.and_eq_true, decide_eq_true_eq, ne_eq]
      split_ifs
      · rw [ofBools_xorVectors (hentry i hi) (hentry pivot hpivot), hselectedRow, hread]
        rfl
      · rw [hread]
        rfl
    · have hswap : Equiv.swap pivot selected i = i :=
        Equiv.swap_apply_of_ne_of_ne (by omega) (by omega)
      rw [rowsOf_of_le (by omega), eliminateWith, hswap, rowsOf_of_le hi, if_neg (by simp)]

theorem ReducedRows.reduceColumn {dimension column : ℕ}
    {state : List (List Bool) × ℕ} {pivots : List ℕ}
    (h : ReducedRows basis dimension column state pivots) :
    ∃ pivots', ReducedRows basis dimension (column + 1) (reduceColumn state column) pivots' := by
  obtain ⟨rows, pivot⟩ := state
  have hbit : ∀ i, (rowsOf rows i).index column = (rows.getD i []).getD column false :=
    fun i => index_ofBools _ _
  have hpivots : pivots.length = pivot := h.length_pivots
  cases hfind : (List.range' pivot (rows.length - pivot)).find? fun row =>
      (rows.getD row []).getD column false with
  | none =>
    have hstep : TransvectionExact.reduceColumn (rows, pivot) column = (rows, pivot) := by
      simp only [TransvectionExact.reduceColumn, hfind]
    rw [hstep]
    refine ⟨pivots, h.length_pivots, h.le_length, h.length_rows, h.reduced.skip fun i hi => ?_,
      h.rowSpace_eq⟩
    rcases Nat.lt_or_ge i rows.length with hlt | hge
    · rw [find?_eq_none] at hfind
      have hnone := hfind i (mem_range'_sub.mpr ⟨hpivots ▸ hi, hlt⟩)
      rw [hbit]
      simpa using hnone
    · rw [rowsOf_of_le hge, index_zero]
  | some selected =>
    have hmem := mem_range'_sub.mp (mem_of_find?_eq_some hfind)
    have hone : (rowsOf rows selected).index column = true := by
      rw [hbit]
      exact find?_some (p := fun row => (rows.getD row []).getD column false) hfind
    obtain ⟨⟨hlength, hlengths⟩, hrows⟩ := rowsOf_eliminated h.length_rows
      (lt_of_le_of_lt hmem.1 hmem.2) hmem.2 column
    have hstep : TransvectionExact.reduceColumn (rows, pivot) column =
        ((swapEntries rows pivot selected).mapIdx fun row vector =>
          if row ≠ pivot && vector.getD column false then
            xorVectors vector ((swapEntries rows pivot selected).getD pivot [])
          else vector, pivot + 1) := by
      simp only [TransvectionExact.reduceColumn, hfind]
    rw [hstep]
    refine ⟨pivots ++ [column], ?_, ?_, hlengths, ?_, ?_⟩
    · rw [length_append, length_singleton, hpivots]
    · exact hlength ▸ lt_of_le_of_lt hmem.1 hmem.2
    · rw [hrows, ← hpivots]
      exact h.reduced.eliminateWith (hpivots ▸ hmem.1) hone
    · rw [hlength, hrows, rowSpace_eliminateWith _ (lt_of_le_of_lt hmem.1 hmem.2) hmem.2]
      exact h.rowSpace_eq

theorem reducedRows_foldl
    (hbasis : ∀ v ∈ basis, v.length = dimension) (column : ℕ) :
    ∃ pivots, ReducedRows basis dimension column
      ((List.range column).foldl reduceColumn (basis, 0)) pivots := by
  induction column with
  | zero => exact ⟨[], rfl, Nat.zero_le _, hbasis, reducedBefore_zero _, rowSpace_rowsOf basis⟩
  | succ column ih =>
    obtain ⟨pivots, h⟩ := ih
    rw [range_succ, foldl_append]
    exact h.reduceColumn

theorem flatten_injective (hn : 0 < n) {l m : List (List Bool)} (hl : ∀ v ∈ l, v.length = n)
    (hm : ∀ v ∈ m, v.length = n) (h : l.flatten = m.flatten) : l = m := by
  induction l generalizing m with
  | nil =>
    cases m with
    | nil => rfl
    | cons w m =>
      have hw := hm w mem_cons_self
      rw [flatten_nil, flatten_cons, eq_comm, append_eq_nil_iff] at h
      rw [h.1, length_nil] at hw
      omega
  | cons v l ih =>
    have hv := hl v mem_cons_self
    cases m with
    | nil =>
      rw [flatten_nil, flatten_cons, append_eq_nil_iff] at h
      rw [h.1, length_nil] at hv
      omega
    | cons w m =>
      have hw := hm w mem_cons_self
      obtain ⟨rfl, hrest⟩ := append_inj h (hv.trans hw.symm)
      rw [ih (fun u hu => hl u (mem_cons_of_mem _ hu))
        (fun u hu => hm u (mem_cons_of_mem _ hu)) hrest]

theorem subspaceKey_eq_iff {a b : List (List Bool)}
    (ha : ∀ v ∈ a, v.length = dimension) (hb : ∀ v ∈ b, v.length = dimension) :
    subspaceKey a dimension = subspaceKey b dimension ↔ spanOf (bitsOf a) = spanOf (bitsOf b) := by
  obtain ⟨p, hp⟩ := reducedRows_foldl ha dimension
  obtain ⟨q, hq⟩ := reducedRows_foldl hb dimension
  have hkey : ∀ c, subspaceKey c dimension =
      (((List.range dimension).foldl reduceColumn (c, 0)).1.take
        ((List.range dimension).foldl reduceColumn (c, 0)).2).flatten := fun _ => rfl
  rw [hkey a, hkey b]
  generalize (List.range dimension).foldl reduceColumn (a, 0) = s at hp
  generalize (List.range dimension).foldl reduceColumn (b, 0) = t at hq
  have hbelow : ∀ {rows : List (List Bool)}, (∀ v ∈ rows, v.length = dimension) →
      ∀ i, (rowsOf rows i).Below dimension := by
    intro rows hrows i
    rcases Nat.lt_or_ge i rows.length with hi | hi
    · rw [rowsOf, getD_eq_getElem _ _ hi]
      exact below_ofBools (hrows _ (getElem_mem hi)).le
    · rw [rowsOf_of_le hi]
      exact below_zero _
  have hreducedP := hp.reduced.reduced (hbelow hp.length_rows)
  have hreducedQ := hq.reduced.reduced (hbelow hq.length_rows)
  have hleP : p.length ≤ s.1.length := hp.length_pivots ▸ hp.le_length
  have hleQ : q.length ≤ t.1.length := hq.length_pivots ▸ hq.le_length
  rw [← hp.length_pivots, ← hq.length_pivots, ← hp.rowSpace_eq, ← hq.rowSpace_eq]
  constructor
  · intro h
    rcases Nat.eq_zero_or_pos dimension with rfl | hpos
    · have hnone : ∀ {pivots : List ℕ} {g : ℕ → Bits}, Bits.ReducedBefore g pivots 0 →
          pivots = [] := fun h => eq_nil_iff_forall_not_mem.mpr fun j hj =>
        absurd (h.lt j hj) (Nat.not_lt_zero j)
      rw [hreducedP.rowSpace_eq_rowSpace_length hleP, hreducedQ.rowSpace_eq_rowSpace_length hleQ,
        hnone hp.reduced, hnone hq.reduced]
      exact rowSpace_congr fun i hi => absurd hi (Nat.not_lt_zero i)
    · have hrows := flatten_injective hpos
        (fun v hv => hp.length_rows v (mem_of_mem_take hv))
        (fun v hv => hq.length_rows v (mem_of_mem_take hv)) h
      have hlength : p.length = q.length := by
        have hcount := congrArg List.length hrows
        rw [length_take, length_take] at hcount
        omega
      rw [hreducedP.rowSpace_eq_rowSpace_length hleP, hreducedQ.rowSpace_eq_rowSpace_length hleQ,
        hlength]
      refine rowSpace_congr fun i hi => ?_
      have hentry := congrArg (fun l => List.getD l i []) hrows
      simp only [getD_eq_getElem?_getD, getElem?_take, hlength, if_pos hi] at hentry
      rw [rowsOf, rowsOf, getD_eq_getElem?_getD, getD_eq_getElem?_getD, hentry]
  · intro h
    obtain ⟨rfl, hsame⟩ := hreducedP.unique hreducedQ hleP hleQ h
    congr 1
    refine ext_getElem (by rw [length_take, length_take]; omega) fun i hi hi' => ?_
    rw [length_take] at hi hi'
    rw [getElem_take, getElem_take]
    refine ofBools_inj ((hp.length_rows _ (getElem_mem _)).trans
      (hq.length_rows _ (getElem_mem _)).symm) ?_
    have hrow := congrFun hsame i
    rwa [rowsOf, rowsOf, getD_eq_getElem _ _ (by omega), getD_eq_getElem _ _ (by omega)]
      at hrow

/-- An ordered basis of the span of a basis in which each vector has length one and is
right-orthogonal to all later ones. -/
structure IsTriangularizing (core : AlignedBitMatrix) (basis picks : List (List Bool)) : Prop where
  length_eq : picks.length = basis.length
  length_picks : ∀ p ∈ picks, p.length = core.rowCount
  unit : ∀ p ∈ picks, bilinear core p p = true
  orthogonal : picks.Pairwise fun p q => bilinear core p q = false
  spanOf_eq : Transvection.spanOf (bitsOf picks) = Transvection.spanOf (bitsOf basis)

/-- The remembered keys are those of spans without a triangularizing basis. -/
def FailureMemo (core : AlignedBitMatrix) (unsolvable : List (List Bool)) : Prop :=
  ∀ basis : List (List Bool), (∀ v ∈ basis, v.length = core.rowCount) →
    Transvection.FullRank (bitsOf basis) → subspaceKey basis core.rowCount ∈ unsolvable →
      ¬ ∃ picks, IsTriangularizing core basis picks

theorem IsTriangularizing.triangular (h : IsTriangularizing core basis picks) :
    Transvection.Triangular (coreForm core) (bitsOf picks) := by
  refine ⟨fun u hu => ?_, ?_⟩
  · obtain ⟨p, hp, rfl⟩ := mem_map.mp hu
    rw [coreForm_ofBools (h.length_picks p hp), h.unit p hp]
    rfl
  · rw [bitsOf, pairwise_map]
    refine h.orthogonal.imp_of_mem fun {p q} _ hq horth => ?_
    rw [coreForm_ofBools (h.length_picks q hq), horth]
    rfl

theorem exists_isTriangularizing_iff
    (hbasis : ∀ v ∈ basis, v.length = core.rowCount)
    (hrank : Transvection.FullRank (bitsOf basis)) : (∃ picks, IsTriangularizing core basis picks) ↔
      Transvection.Triangularizable (coreForm core) (spanOf (bitsOf basis)) := by
  constructor
  · rintro ⟨picks, h⟩
    exact ⟨bitsOf picks, h.triangular, h.spanOf_eq⟩
  · rintro ⟨l, hl, hspan⟩
    have hbelow : ∀ u ∈ l, u.Below core.rowCount := by
      intro u hu
      have hmem := mem_spanOf hu
      rw [hspan, ← rowSpace_rowsOf] at hmem
      obtain ⟨t, ht, rfl⟩ := hmem
      refine below_combine _ fun i hi => ?_
      have hlt := ht.lt_of_index hi
      rw [rowsOf, getD_eq_getElem _ _ hlt]
      exact below_ofBools (hbasis _ (getElem_mem hlt)).le
    let vectorOf (u : Bits) : List Bool := (List.range core.rowCount).map u.index
    have hbits : ∀ u ∈ l, ofBools (vectorOf u) = u := fun u hu =>
      (ofBools_map_range core.rowCount u).trans (low_eq_self (hbelow u hu))
    have hlength : ∀ u, (vectorOf u).length = core.rowCount := by simp [vectorOf]
    have hback : bitsOf (l.map vectorOf) = l := by
      rw [bitsOf, map_map]
      exact (map_congr_left hbits).trans (map_id l)
    have hvalue : ∀ u ∈ l, ∀ w ∈ l, coreForm core u w =
        signBit (bilinear core (vectorOf u) (vectorOf w)) := by
      intro u hu w hw
      rw [← coreForm_ofBools (hlength w), hbits u hu, hbits w hw]
    refine ⟨l.map vectorOf, ?_, ?_, ?_, ?_, by rw [hback, hspan]⟩
    · have hcount := hl.fullRank
      rw [Transvection.FullRank, hspan, hrank, bitsOf, length_map] at hcount
      rw [length_map, hcount]
    · intro p hp
      obtain ⟨u, _, rfl⟩ := mem_map.mp hp
      exact hlength u
    · intro p hp
      obtain ⟨u, hu, rfl⟩ := mem_map.mp hp
      exact signBit_eq_one.mp ((hvalue u hu u hu).symm.trans (hl.unit u hu))
    · rw [pairwise_map]
      refine hl.orthogonal.imp_of_mem fun {u w} hu hw horth => ?_
      exact signBit_eq_zero.mp ((hvalue u hu w hw).symm.trans horth)

theorem FailureMemo.cons
    (hmemo : FailureMemo core unsolvable) (hbasis : ∀ v ∈ basis, v.length = core.rowCount)
    (hnone : ¬ Transvection.Triangularizable (coreForm core) (spanOf (bitsOf basis))) :
    FailureMemo core (subspaceKey basis core.rowCount :: unsolvable) := by
  intro other hother hotherRank hkey
  rcases mem_cons.mp hkey with heq | hmem
  · rw [exists_isTriangularizing_iff hother hotherRank, (subspaceKey_eq_iff hother hbasis).mp heq]
    exact hnone
  · exact hmemo other hother hotherRank hmem

theorem IsTriangularizing.cons
    {complement rest : List (List Bool)} (h : IsTriangularizing core complement rest)
    (hpick : ofBools pick ∈ spanOf (bitsOf basis))
    (hunit : bilinear core pick pick = true) (hlength : pick.length = core.rowCount)
    (hcomplement : complement.length + 1 = basis.length) (hspan : spanOf (bitsOf complement) =
      rightOrthogonal (coreForm core) (ofBools pick) (spanOf (bitsOf basis))) :
    IsTriangularizing core basis (pick :: rest) where
  length_eq := by rw [length_cons, h.length_eq, hcomplement]
  length_picks p hp := by
    rcases mem_cons.mp hp with rfl | hp
    · exact hlength
    · exact h.length_picks p hp
  unit p hp := by
    rcases mem_cons.mp hp with rfl | hp
    · exact hunit
    · exact h.unit p hp
  orthogonal := by
    refine pairwise_cons.mpr ⟨fun q hq => ?_, h.orthogonal⟩
    have hmem := mem_spanOf (mem_map_of_mem (f := ofBools) hq)
    change ofBools q ∈ spanOf (bitsOf rest) at hmem
    rw [h.spanOf_eq, hspan] at hmem
    have hzero : coreForm core (ofBools pick) (ofBools q) = 0 := hmem.2
    rw [coreForm_ofBools (h.length_picks q hq)] at hzero
    exact signBit_eq_zero.mp hzero
  spanOf_eq := by
    have hvalue : coreForm core (ofBools pick) (ofBools pick) = 1 := by
      rw [coreForm_ofBools hlength, hunit]
      rfl
    rw [bitsOf, map_cons, spanOf_cons]
    change _ ⊔ spanOf (bitsOf rest) = _
    rw [h.spanOf_eq, hspan, span_sup_rightOrthogonal hpick hvalue]

/-- What a search returns for a basis: a triangularizing basis when there is one, and a memo of
spans without one. -/
structure SearchSpec (core : AlignedBitMatrix) (basis : List (List Bool))
    (result : Option (List (List Bool)) × List (List Bool)) :
    Prop where
  found : ∀ picks, result.1 = some picks → IsTriangularizing core basis picks
  complete : result.1 = none →
    ¬ Transvection.Triangularizable (coreForm core) (Transvection.spanOf (bitsOf basis))
  memo : FailureMemo core result.2

/-- What the loop over the picks returns. -/
structure ExploreSpec (core : AlignedBitMatrix) (basis picks : List (List Bool))
    (result : Option (List (List Bool)) × List (List Bool)) :
    Prop where
  found : ∀ found, result.1 = some found → IsTriangularizing core basis found
  complete : result.1 = none → ∀ pick ∈ picks, bilinear core pick pick = true →
    ¬ Transvection.Triangularizable (coreForm core)
      (Transvection.rightOrthogonal (coreForm core) (Bits.ofBools pick)
        (Transvection.spanOf (bitsOf basis)))
  memo : FailureMemo core result.2

theorem ExploreSpec.skip
    {result : Option (List (List Bool)) × List (List Bool)}
    (h : ExploreSpec core basis picks result) (hpick : bilinear core pick pick = true →
      ¬ Transvection.Triangularizable (coreForm core)
        (rightOrthogonal (coreForm core) (ofBools pick) (spanOf (bitsOf basis)))) :
    ExploreSpec core basis (pick :: picks) result where
  found := h.found
  complete hnone p hp hunit := by
    rcases mem_cons.mp hp with rfl | hp
    · exact hpick hunit
    · exact h.complete hnone p hp hunit
  memo := h.memo

theorem explorePicks_spec
    (hbasis : ∀ v ∈ basis, v.length = core.rowCount) (hrank : Transvection.FullRank (bitsOf basis))
    {search : List (List Bool) → List (List Bool) → Option (List (List Bool)) × List (List Bool)}
    (hsearch : ∀ complement unsolvable, complement.length + 1 = basis.length →
      (∀ v ∈ complement, v.length = core.rowCount) → Transvection.FullRank (bitsOf complement) →
        FailureMemo core unsolvable → SearchSpec core complement (search complement unsolvable)) (hpicks : ∀ v ∈ picks, v.length = core.rowCount ∧
      ofBools v ∈ spanOf (bitsOf basis)) {explored : List (List Bool)}
    (hexplored : ∀ complement : List (List Bool), (∀ v ∈ complement, v.length = core.rowCount) →
      subspaceKey complement core.rowCount ∈ explored →
        ¬ Transvection.Triangularizable (coreForm core) (spanOf (bitsOf complement)))
    (hmemo : FailureMemo core unsolvable) : ExploreSpec core basis picks
      (explorePicks core core.rowCount search basis picks explored unsolvable) := by
  induction picks generalizing explored unsolvable with
  | nil =>
    exact
      ⟨fun found hfound => (by simp [explorePicks] at hfound), fun _ p hp => (by simp at hp), hmemo⟩
  | cons pick picks ih =>
    obtain ⟨hlength, hmem⟩ := hpicks pick mem_cons_self
    have hrest := fun v hv => hpicks v (mem_cons_of_mem pick hv)
    rw [explorePicks]
    cases hunit : bilinear core pick pick with
    | false =>
      refine (ih hrest hexplored hmemo).skip fun h => ?_
      rw [hunit] at h
      cases h
    | true =>
      obtain ⟨complement, hcomplement, hcount, hlengths, hspan⟩ :=
        rightOrthogonalComplement_spec hbasis hmem hunit hlength
      have hvalue : coreForm core (ofBools pick) (ofBools pick) = 1 := by
        rw [coreForm_ofBools hlength, hunit]
        rfl
      have hcomplementRank : Transvection.FullRank (bitsOf complement) := by
        refine hrank.rightOrthogonal hmem hvalue hspan ?_
        rw [bitsOf, bitsOf, length_map, length_map, hcount]
      simp only [Bool.not_true, Bool.false_eq_true, if_false, hcomplement]
      split_ifs with hkey
      · -- The complement was explored before, so it is known to fail.
        refine (ih hrest hexplored hmemo).skip fun _ => ?_
        rw [← hspan]
        exact hexplored complement hlengths hkey
      · have hresult := hsearch complement unsolvable hcount hlengths hcomplementRank hmemo
        generalize search complement unsolvable = result at hresult
        obtain ⟨found, memo⟩ := result
        cases found with
        | some rest =>
          refine ⟨fun found hfound => ?_, fun hnone => (by cases hnone), hresult.memo⟩
          obtain rfl := Option.some.inj hfound
          exact (hresult.found rest rfl).cons hmem hunit hlength hcount hspan
        | none =>
          have hfail := hresult.complete rfl
          refine (ih hrest (fun other hother hmem => ?_) hresult.memo).skip fun _ => ?_
          · rcases mem_cons.mp hmem with heq | hmem
            · rw [(subspaceKey_eq_iff hother hlengths).mp heq]
              exact hfail
            · exact hexplored other hother hmem
          · rw [← hspan]
            exact hfail

theorem triangularizeWithin_spec {size : ℕ} (hsize : basis.length = size)
    (hbasis : ∀ v ∈ basis, v.length = core.rowCount) (hrank : Transvection.FullRank (bitsOf basis))
    (hmemo : FailureMemo core unsolvable) :
    SearchSpec core basis (triangularizeWithin core core.rowCount size basis unsolvable) := by
  induction size generalizing basis unsolvable with
  | zero =>
    obtain rfl := length_eq_zero_iff.mp hsize
    refine ⟨fun picks hpicks => ?_, fun hnone => ?_, hmemo⟩
    · obtain rfl := Option.some.inj hpicks
      exact ⟨rfl, by simp, by simp, List.Pairwise.nil, rfl⟩
    · cases hnone
  | succ size ih =>
    have hne : basis ≠ [] := by
      rintro rfl
      cases hsize
    rw [triangularizeWithin]
    split_ifs with hkey halternating
    · refine ⟨fun picks hpicks => (by cases hpicks), fun _ => ?_, hmemo⟩
      rw [← exists_isTriangularizing_iff hbasis hrank]
      exact hmemo basis hbasis hrank hkey
    · have hfail := not_triangularizable_of_isAlternating hbasis hrank hne halternating
      exact ⟨fun picks hpicks => (by cases hpicks), fun _ => hfail, hmemo.cons hbasis hfail⟩
    · obtain ⟨hmem, hall⟩ := spanVectors_spec hbasis hne
      have hexplore : ExploreSpec core basis (spanVectors basis)
          (explorePicks core core.rowCount (triangularizeWithin core core.rowCount size) basis
            (spanVectors basis) [] unsolvable) :=
        explorePicks_spec hbasis hrank
          (fun complement unsolvable hcount hlengths hcomplementRank hmemo =>
            ih (by omega) hlengths hcomplementRank hmemo)
          hmem (fun _ _ hmem => by simp at hmem) hmemo
      generalize explorePicks core core.rowCount (triangularizeWithin core core.rowCount size) basis
        (spanVectors basis) [] unsolvable = result at hexplore
      obtain ⟨found, memo⟩ := result
      cases found with
      | some picks => exact ⟨hexplore.found, fun hnone => (by cases hnone), hexplore.memo⟩
      | none =>
        have hfail : ¬ Transvection.Triangularizable (coreForm core)
            (spanOf (bitsOf basis)) := by
          rw [triangularizable_iff]
          rintro (hzero | ⟨u, hu, hunit, hsolvable⟩)
          · exact hrank.spanOf_ne_bot (by simpa [bitsOf] using hne) hzero
          · have hnonzero : u ≠ 0 := by
              rintro rfl
              rw [map_zero] at hunit
              exact zero_ne_one hunit
            obtain ⟨v, hv, rfl⟩ := hall u hu hnonzero
            rw [coreForm_ofBools (hmem v hv).1] at hunit
            exact hexplore.complete rfl v hv (signBit_eq_one.mp hunit) hsolvable
        exact ⟨fun picks hpicks => (by cases hpicks), fun _ => hfail,
          hexplore.memo.cons hbasis hfail⟩

theorem length_of_mem_standardBasis {v : List Bool} (hv : v ∈ standardBasis n) : v.length = n := by
  obtain ⟨i, _, rfl⟩ := mem_map.mp hv
  rw [length_map, length_range]

theorem bitsOf_standardBasis (n : ℕ) : bitsOf (standardBasis n) = (List.range n).map unit := by
  rw [bitsOf, standardBasis, map_map]
  refine map_congr_left fun i hi => ext_index fun j => ?_
  have hin := mem_range.mp hi
  rw [Function.comp_apply, index_ofBools, index_unit]
  rcases Nat.lt_or_ge j n with hj | hj
  · rcases eq_or_ne j i with rfl | hne
    · simp [getD_eq_getElem?_getD, hj]
    · simp [getD_eq_getElem?_getD, hj, hne, hne.symm]
  · rw [getD_eq_default _ _ (by simpa using hj), decide_eq_false (by omega)]

theorem spanOf_standardBasis {u : Bits} (hu : u.Below n) :
    u ∈ spanOf (bitsOf (standardBasis n)) := by
  rw [bitsOf_standardBasis, ← combine_units u]
  refine combine_mem fun i hi => mem_spanOf ?_
  exact mem_map_of_mem (mem_range.mpr (hu.lt_of_index hi))

/-- The coordinate vectors have no dependency. -/
theorem fullRank_standardBasis (n : ℕ) : Transvection.FullRank (bitsOf (standardBasis n)) := by
  have hvalue : ∀ i < n, ∀ j, coreForm (identity n) (unit i) (unit j) =
      signBit (decide (i = j)) := by
    intro i hi j
    rw [coreForm_apply, dot_unit_left, index_mulVec, row_identity hi, dot_unit_left, index_unit]
    simp [eq_comm]
  have htriangular : Transvection.Triangular (coreForm (identity n))
      (bitsOf (standardBasis n)) := by
    rw [bitsOf_standardBasis]
    constructor
    · intro u hu
      obtain ⟨i, hi, rfl⟩ := mem_map.mp hu
      rw [hvalue i (mem_range.mp hi), decide_eq_true rfl]
      rfl
    · rw [pairwise_map]
      refine pairwise_lt_range.imp_of_mem fun {i j} hi _ hij => ?_
      rw [hvalue i (mem_range.mp hi), decide_eq_false (Nat.ne_of_lt hij)]
      rfl
  exact htriangular.fullRank

theorem failureMemo_nil (core : AlignedBitMatrix) : FailureMemo core [] :=
  fun _ _ _ hmem => absurd hmem not_mem_nil

/-- The search returns a triangularizing basis exactly when one exists.  Its memo remembers
spans without one: the keys of two lists of vectors are equal exactly when their spans are, and a
nonzero span that is rejected as alternating has no triangularizing basis. -/
theorem triangularizeSubspace_spec {core : AlignedBitMatrix} {dimension : ℕ}
    (hcore : core.rowCount = dimension) {basis unsolvable : List (List Bool)}
    (hbasis : ∀ v ∈ basis, v.length = dimension) (hrank : Transvection.FullRank (bitsOf basis))
    (hmemo : FailureMemo core unsolvable) :
    ((triangularizeSubspace core basis dimension unsolvable).1.isSome = true ↔
        ∃ picks, IsTriangularizing core basis picks) ∧
      (∀ picks, (triangularizeSubspace core basis dimension unsolvable).1 = some picks →
        IsTriangularizing core basis picks) ∧
      FailureMemo core (triangularizeSubspace core basis dimension unsolvable).2 ∧
      (∀ a b : List (List Bool), (∀ v ∈ a, v.length = dimension) → (∀ v ∈ b, v.length = dimension) →
          (subspaceKey a dimension = subspaceKey b dimension ↔
            Transvection.spanOf (bitsOf a) = Transvection.spanOf (bitsOf b))) ∧
      ∀ restriction : List (List Bool), (∀ v ∈ restriction, v.length = dimension) →
        Transvection.FullRank (bitsOf restriction) → restriction ≠ [] →
          isAlternating core restriction = true →
            ¬ ∃ picks, IsTriangularizing core restriction picks := by
  subst hcore
  have hspec := triangularizeWithin_spec rfl hbasis hrank hmemo
  change SearchSpec core basis (triangularizeSubspace core basis core.rowCount unsolvable) at hspec
  generalize triangularizeSubspace core basis core.rowCount unsolvable = result at hspec
  refine ⟨?_, hspec.found, hspec.memo, fun a b => subspaceKey_eq_iff,
    fun restriction hlengths hfull hne halternating => ?_⟩
  · constructor
    · intro hsome
      obtain ⟨picks, hpicks⟩ := Option.isSome_iff_exists.mp hsome
      exact ⟨picks, hspec.found picks hpicks⟩
    · intro hexists
      by_contra hnone
      have hempty : result.1 = none := by simpa using hnone
      exact hspec.complete hempty ((exists_isTriangularizing_iff hbasis hrank).mp hexists)
  · rw [exists_isTriangularizing_iff hlengths hfull]
    exact not_triangularizable_of_isAlternating hlengths hfull hne halternating

theorem triangularizeSubspace_spec_standardBasis :
    (triangularizeSubspace (AlignedBitMatrix.identity 2) (standardBasis 2) 2 []).1.isSome = true ↔
      ∃ picks, IsTriangularizing (AlignedBitMatrix.identity 2) (standardBasis 2) picks :=
  (triangularizeSubspace_spec (rowCount_identity 2)
    (fun _ hv => length_of_mem_standardBasis hv) (fullRank_standardBasis 2)
    (failureMemo_nil _)).1

end TransvectionExact

end QdkEc
