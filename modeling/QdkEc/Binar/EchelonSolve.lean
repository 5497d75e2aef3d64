import QdkEc.Binar.EchelonForm

/-!
# Solving with echelon forms

This module proves what the echelon form of a matrix says about it: its pivots
are the column rank profile, its rows have the row space of the matrix, and the
two solvers find a solution when there is one.  The words of a row beyond the
last column decide whether the transposed solver succeeds.
-/

namespace QdkEc

open Bits List Bits.Reduced

namespace AlignedBitMatrix

variable (m : AlignedBitMatrix)

@[simp]
theorem index_mulVec (v : Bits) (i : ℕ) :
    (m.mulVec v).index i = Bits.dot (m.row i) v := by
  unfold mulVec
  rcases Nat.lt_or_ge i m.rowCount with hi | hi
  · simp [hi]
  · simp [row_of_le hi]

theorem below_mulVec (v : Bits) : (m.mulVec v).Below m.rowCount := by
  rw [below_iff]
  intro i hi
  rw [index_mulVec, row_of_le hi, dot_zero_left]

theorem below_column (j : ℕ) : (m.column j).Below m.rowCount := by
  rw [below_iff]
  intro i hi
  rw [index_column, get_eq_false_of_le hi]

/-- Multiplying by a vector is additive. -/
def mulVecHom (m : AlignedBitMatrix) : Bits →+ Bits where
  toFun := m.mulVec
  map_zero' := by
    refine ext_index fun i => ?_
    simp
  map_add' a b := by
    refine ext_index fun i => ?_
    simp

theorem combine_column (t : Bits) :
    Bits.combine m.column t = m.mulVec t := by
  refine ext_index fun i => ?_
  rw [index_mulVec, dot_comm]
  exact index_combine m.column (fun j => m.index_column i j) t

end AlignedBitMatrix

namespace EchelonForm

open AlignedBitMatrix

/-- One step of a substitution: a target with a one at the key of a row is reduced by the row, and
the row enters the solution. -/
def substitute (key pos : ℕ → ℕ) (v : ℕ → Bits) (state : Bits × Bits) (i : ℕ) : Bits × Bits :=
  if state.1.index (key i) then (state.1 + v i, assignIndex state.2 (pos i) true) else state

theorem ofList_filter_append (p : ℕ → Bool) (l : List ℕ) (i : ℕ) : ofList ((l ++ [i]).filter p) =
      ofList (l.filter p) + if p i then unit i else 0 := by
  rw [filter_append]
  unfold ofList
  rw [map_append, sum_append]
  cases hp : p i <;> simp [hp]

theorem foldl_substitute (key pos : ℕ → ℕ) {v : ℕ → Bits} {n : ℕ}
    (hdual : ∀ i j, i < n → j < n → (v i).index (key j) = decide (i = j))
    (hpos : ∀ i j, i < n → j < n → pos i = pos j → i = j) (target : Bits) {l : List ℕ}
    (hl : l.Nodup) (hlt : ∀ i ∈ l, i < n) : l.foldl (substitute key pos v) (target, 0) =
      (target + Bits.combine v (ofList (l.filter fun i => target.index (key i))),
        Bits.combine (fun i => unit (pos i))
          (ofList (l.filter fun i => target.index (key i)))) := by
  induction l using List.reverseRecOn with
  | nil => simp
  | append_singleton l i ih =>
    obtain ⟨hl, _, hdisjoint⟩ := nodup_append.mp hl
    have hi : i < n := hlt i (by simp)
    have hil : i ∉ l := fun h => hdisjoint i h i (by simp) rfl
    set selected := ofList (l.filter fun i => target.index (key i)) with hselected
    have hindex : ∀ j, selected.index j = true → j < n ∧ j ≠ i := by
      intro j hj
      rw [hselected, index_ofList (hl.filter _), decide_eq_true_iff, mem_filter] at hj
      exact ⟨hlt j (by simp [hj.1]), fun hji => hil (hji ▸ hj.1)⟩
    have hkey : (Bits.combine v selected).index (key i) = false :=
      index_combine_eq_false v fun j hj => by
        rw [hdual j i (hindex j hj).1 hi, decide_eq_false (hindex j hj).2]
    have hpos' : (Bits.combine (fun j => unit (pos j)) selected).index (pos i) = false :=
      index_combine_eq_false _ fun j hj => by
        rw [index_unit, decide_eq_false]
        exact fun heq => (hindex j hj).2 (hpos j i (hindex j hj).1 hi heq)
    rw [foldl_append, ih hl fun j hj => hlt j (by simp [hj]), ofList_filter_append,
      ← hselected, foldl_cons, foldl_nil, substitute]
    dsimp only
    rw [index_add, hkey, Bool.xor_false]
    cases ht : target.index (key i) with
    | false => simp
    | true =>
      rw [if_pos rfl, if_pos rfl, combine_add, combine_add, combine_unit,
        combine_unit, add_assoc, assignIndex, if_neg (by simp [hpos']),
        add_comm (unit (pos i))]

theorem ofList_filter_range {n : ℕ} {l : List ℕ} (hl : l.Nodup) (hmem : ∀ i, i ∈ l ↔ i < n)
    {p : ℕ → Bool} {b : Bits} (hb : b.Below n) (hp : ∀ i, i < n → p i = b.index i) :
    ofList (l.filter p) = b := by
  refine ext_index fun i => ?_
  rw [index_ofList (hl.filter p)]
  rcases Nat.lt_or_ge i n with hi | hi
  · simp [hmem, hi, hp i hi]
  · rw [hb.index_eq_false hi, decide_eq_false]
    rw [mem_filter, hmem]
    omega

section Solve

variable {A : AlignedBitMatrix} {form : EchelonForm} (h : Eliminated A form A.columnCount)

include h

theorem Eliminated.transposeSolveRrefSystem_eq (y : Bits) :
    transposeSolveRrefSystem form.matrix form.pivots y =
      if Bits.combine form.matrix.row (coefficients form.pivots y) = y then
        some (coefficients form.pivots y) else none := by
  have hfold := foldl_substitute (fun i => form.pivots.getD i 0) id
    (v := form.matrix.row) (n := form.pivots.length) (fun i j _ hj => by
      rw [getD_eq_getElem _ _ hj]
      exact h.pivot i j hj) (fun i j _ _ hij => hij) y nodup_range
    (fun i hi => mem_range.mp hi)
  rw [ofList_filter_range nodup_range (fun i => mem_range)
    (below_coefficients y) fun i hi => by
      rw [index_coefficients hi, getD_eq_getElem _ _ hi]] at hfold
  unfold transposeSolveRrefSystem
  let substituted := (List.range form.pivots.length).foldl
    (substitute (fun i => form.pivots.getD i 0) id form.matrix.row) (y, 0)
  change (if substituted.1 = 0 then some substituted.2 else none) = _
  simp only [substituted]
  rw [hfold]
  dsimp only [id]
  rw [combine_units]
  refine if_congr ?_ rfl rfl
  rw [add_eq_zero_iff, eq_comm]

theorem Eliminated.mulVec_eq (x : Bits) :
    form.matrix.mulVec x = form.transform.mulVec (A.mulVec x) := by
  refine ext_index fun i => ?_
  rw [index_mulVec, index_mulVec, h.transforms.combine]
  exact dot_combine A.row (fun j => (A.index_mulVec x j).symm) _

theorem Eliminated.mulVec_transform_inj {a b : Bits} (ha : a.Below A.rowCount)
    (hb : b.Below A.rowCount) : form.transform.mulVec a = form.transform.mulVec b ↔ a = b := by
  refine ⟨fun heq => ?_, congrArg _⟩
  refine ext_index fun i => ?_
  rcases Nat.lt_or_ge i A.rowCount with hi | hi
  · obtain ⟨c, _, hc⟩ := h.transforms.dual.exists_combine (below_unit.mpr hi)
    have hread : ∀ v : Bits, v.index i = Bits.dot c (form.transform.mulVec v) := by
      intro v
      rw [← dot_unit_left, ← hc]
      exact dot_combine _ (fun j => (index_mulVec _ v j).symm) c
    rw [hread a, hread b, heq]
  · rw [ha.index_eq_false hi, hb.index_eq_false hi]

theorem Eliminated.index_mulVec_pivots {t : Bits} (ht : t.Below form.pivots.length) :
    form.matrix.mulVec (Bits.combine (fun i => unit (form.pivots.getD i 0)) t) = t := by
  rw [← combine_column, combine_combine]
  calc
    Bits.combine (fun i => Bits.combine form.matrix.column (unit (form.pivots.getD i 0))) t =
        Bits.combine unit t := by
      refine combine_congr ht fun i hi => ?_
      rw [combine_unit]
      refine ext_index fun j => ?_
      rw [index_column, getD_eq_getElem _ _ hi, h.pivot j i hi, index_unit]
      simp [eq_comm]
    _ = t := combine_units t

theorem Eliminated.below_combine_pivots {t : Bits} (ht : t.Below form.pivots.length) :
    (Bits.combine (fun i => unit (form.pivots.getD i 0)) t).Below A.columnCount := by
  refine below_combine _ fun i hi => ?_
  have hlt := ht.lt_of_index hi
  rw [below_unit, getD_eq_getElem _ _ hlt]
  exact h.lt _ (getElem_mem hlt)

/-- The first rows of the form have no bits beyond the last column. -/
def PivotRowsClear (A : AlignedBitMatrix) (form : EchelonForm) : Prop :=
  ∀ i, i < form.pivots.length → (form.matrix.row i).Below A.columnCount

theorem Eliminated.rowSpace_eq :
    rowSpace A.rowCount (fun i => Bits.low A.columnCount (form.matrix.row i)) =
      rowSpace A.rowCount (fun i => Bits.low A.columnCount (A.row i)) := by
  have hrows : (fun i => Bits.low A.columnCount (form.matrix.row i)) =
      fun i => Bits.combine (fun j => Bits.low A.columnCount (A.row j)) (form.transform.row i) := by
    funext i
    rw [h.transforms.combine, low_combine]
  rw [hrows]
  exact h.transforms.dual.rowSpace_transform _

theorem Eliminated.rightMultiply_transform (t : Bits) :
    A.rightMultiply (form.transform.rightMultiply t) = form.matrix.rightMultiply t := by
  unfold rightMultiply
  rw [combine_combine]
  congr 1
  funext i
  exact (h.transforms.combine i).symm

theorem Eliminated.below_rightMultiply_transform {t : Bits} (ht : t.Below form.pivots.length) :
    (form.transform.rightMultiply t).Below A.rowCount := by
  refine below_combine _ fun i hi => h.transforms.dual.below_left i ?_
  exact lt_of_lt_of_le (ht.lt_of_index hi) h.length_le

theorem Eliminated.transposeSolve_eq (y : Bits) : form.transposeSolve y =
      if form.matrix.rightMultiply (coefficients form.pivots y) = y then
        some (form.transform.rightMultiply (coefficients form.pivots y)) else none := by
  unfold transposeSolve
  rw [h.transposeSolveRrefSystem_eq]
  unfold rightMultiply
  split_ifs <;> rfl

theorem Eliminated.transposeSolve_sound {x y : Bits} (hsolve : form.transposeSolve y = some x) :
    x.Below A.rowCount ∧ A.rightMultiply x = y := by
  rw [h.transposeSolve_eq] at hsolve
  split_ifs at hsolve with hsum
  obtain rfl := Option.some_inj.mp hsolve
  refine ⟨h.below_rightMultiply_transform (below_coefficients y), ?_⟩
  rw [h.rightMultiply_transform, hsum]

theorem Eliminated.transposeSolve_complete (hclear : PivotRowsClear A form) {x y : Bits}
    (hx : x.Below A.rowCount) (hxy : Bits.low A.columnCount (A.rightMultiply x) = y) :
    form.transposeSolve y = some (form.transform.rightMultiply (coefficients form.pivots y)) := by
  have hmem : y ∈ rowSpace A.rowCount
      (fun i => Bits.low A.columnCount (form.matrix.row i)) := by
    rw [h.rowSpace_eq, ← hxy]
    exact ⟨x, hx, (low_combine _ _ _).symm⟩
  have hsum := (h.reduced.mem_rowSpace_iff h.length_le).mp hmem
  rw [h.transposeSolve_eq, if_pos]
  refine Eq.trans ?_ hsum
  refine combine_congr (below_coefficients y) fun i hi => ?_
  exact (low_eq_self (hclear i hi)).symm

theorem Eliminated.mem_pivots_iff {j : ℕ} :
    j ∈ form.pivots ↔ j < A.columnCount ∧ A.column j ∉ rowSpace j A.column := by
  have hcolumn : ∀ t : Bits, Bits.combine A.column t = A.column j ↔
      Bits.combine form.matrix.column t = form.matrix.column j := by
    intro t
    rw [← combine_unit A.column j, ← combine_unit form.matrix.column j,
      combine_column, combine_column, combine_column, combine_column, h.mulVec_eq, h.mulVec_eq,
      h.mulVec_transform_inj (below_mulVec A _) (below_mulVec A _)]
  have hmem : A.column j ∈ rowSpace j A.column ↔
      ∃ t : Bits, t.Below j ∧ Bits.combine form.matrix.column t = form.matrix.column j := by
    rw [mem_rowSpace]
    exact exists_congr fun t => and_congr_right fun _ => hcolumn t
  rw [hmem]
  constructor
  · intro hj
    refine ⟨h.lt j hj, ?_⟩
    rintro ⟨t, ht, hsum⟩
    obtain ⟨i, hi, rfl⟩ := mem_iff_getElem.mp hj
    -- The row of the pivot has nothing before the pivot.
    have hindex : (Bits.combine form.matrix.column t).index i = false :=
      index_combine_eq_false _ fun k hk => by
        rw [index_column]
        exact h.leading i hi k (ht.lt_of_index hk)
    rw [hsum, index_column, h.pivot i i hi, decide_eq_true rfl] at hindex
    cases hindex
  · rintro ⟨hj, hindependent⟩
    by_contra hnot
    have hbelow : (form.matrix.column j).Below form.pivots.length := by
      rw [below_iff]
      intro i hi
      rw [index_column]
      exact h.cleared i j hi hj
    refine hindependent ⟨Bits.combine (fun i => unit (form.pivots.getD i 0))
      (form.matrix.column j), below_combine _ fun i hi => ?_, ?_⟩
    · have hlt := hbelow.lt_of_index hi
      rw [index_column] at hi
      rw [below_unit, getD_eq_getElem _ _ hlt]
      rcases Nat.lt_trichotomy form.pivots[i] j with hbefore | heq | hafter
      · exact hbefore
      · exact absurd (heq ▸ getElem_mem hlt) hnot
      · rw [h.leading i hlt j hafter] at hi
        cases hi
    · rw [combine_column, h.index_mulVec_pivots hbelow]

end Solve

theorem shiftUp_shiftDown {n : ℕ} {b : Bits} (hb : ∀ j, j < n → b.index j = false) :
    (shiftDown n b).shiftUp n = b := by
  refine ext_index fun j => ?_
  rw [index_shiftUp, index_shiftDown]
  rcases Nat.lt_or_ge j n with hj | hj
  · rw [hb j hj, decide_eq_false (by omega), Bool.false_and]
  · rw [decide_eq_true hj, Bool.true_and, show n + (j - n) = j by omega]

theorem reduce_eq (form : EchelonForm) {p c : ℕ} (hp : p < form.matrix.rowCount)
    (hclear : ∀ j, j < c → form.matrix.get p j = false) :
    form.matrix.reduce (p, c) = (form.reduceWithTransforms (p, c)).matrix := by
  have hfold : ∀ l : List ℕ, (∀ i ∈ l, i < form.matrix.rowCount ∧ i ≠ p) → ∀ form' : EchelonForm,
      form'.matrix.rowCount = form.matrix.rowCount →
        (∀ j, j < c → form'.matrix.get p j = false) →
          l.foldl (fun m rowIndex =>
            if m.get rowIndex c then
              m.setRow rowIndex (m.row rowIndex + (shiftDown (c / blockBitLen * blockBitLen)
                (m.row p)).shiftUp (c / blockBitLen * blockBitLen))
            else m) form'.matrix = (l.foldl (xorIfColumnWithTransforms c p) form').matrix := by
    intro l
    induction l with
    | nil =>
      intro _ form' _ _
      rfl
    | cons i l ih =>
      intro hl form' hrows hclear'
      obtain ⟨hi, hip⟩ := hl i (by simp)
      have hstep : (if form'.matrix.get i c then
          form'.matrix.setRow i (form'.matrix.row i +
            (shiftDown (c / blockBitLen * blockBitLen) (form'.matrix.row p)).shiftUp
              (c / blockBitLen * blockBitLen))
          else form'.matrix) = (form'.xorIfColumnWithTransforms c p i).matrix := by
        rw [shiftUp_shiftDown fun j hj => hclear' j
          (lt_of_lt_of_le hj (Nat.div_mul_le_self c blockBitLen))]
        unfold xorIfColumnWithTransforms
        split_ifs <;> rfl
      rw [foldl_cons, foldl_cons, hstep]
      refine ih (fun j hj => hl j (by simp [hj])) _ ?_ fun j hj => ?_
      · unfold xorIfColumnWithTransforms
        split_ifs <;> exact hrows
      · unfold xorIfColumnWithTransforms AlignedBitMatrix.get
        split_ifs
        · rw [row_addIntoRow (by omega), if_neg (Ne.symm hip)]
          exact hclear' j hj
        · exact hclear' j hj
  exact hfold _ (fun i hi => (mem_otherRows hp).mp hi) form rfl hclear

theorem echelonize_eq (A : AlignedBitMatrix) : A.echelonize = ((new A).matrix, (new A).pivots) := by
  have hloop : ∀ (remaining : ℕ) {form : EchelonForm} {c : ℕ} {pivot : ℕ × ℕ},
      Eliminated A form c → form.pivots.length + remaining = A.rowCount →
        form.matrix.IsPivot (form.pivots.length, c) pivot →
          echelonizeFrom remaining form.pivots.length pivot (form.matrix, form.pivots) =
            ((eliminate remaining form.pivots.length pivot form).matrix,
              (eliminate remaining form.pivots.length pivot form).pivots) := by
    intro remaining
    induction remaining with
    | zero =>
      intro form c pivot _ _ _
      rfl
    | succ remaining ih =>
      intro form c pivot h hremaining hpivot
      unfold echelonizeFrom eliminate
      split_ifs with hstop
      · rfl
      · have hcount := h.transforms.columnCount
        have hrows := h.transforms.rowCount
        obtain ⟨hnext, hpivots⟩ := h.step (by omega) hpivot (by omega)
        have hlength : ((form.swapRowsWithTransforms pivot
            form.pivots.length).reduceWithTransforms (form.pivots.length, pivot.2)).pivots.length =
              form.pivots.length + 1 := by
          rw [hpivots, length_append, length_singleton]
        obtain ⟨hle, hlt, _⟩ := hpivot.found (by omega) (by dsimp only; omega)
        have hreduce := reduce_eq (form.swapRowsWithTransforms pivot form.pivots.length)
          (p := form.pivots.length) (c := pivot.2)
          (by rw [(h.transforms.swapRows (by omega) (by omega)).rowCount]; omega) fun j hj => by
            change (form.matrix.swapRows _ _).get _ _ = _
            unfold AlignedBitMatrix.get
            rw [row_swapRows hlt (by omega), Equiv.swap_apply_right]
            rcases Nat.lt_or_ge j c with hjc | hjc
            · exact h.cleared _ j hle hjc
            · exact hpivot.before _ j hle hjc hj
        have hrest := ih hnext (by omega) (isPivot_pivotOf _ (_, pivot.2 + 1))
        rw [hlength, hpivots] at hrest
        dsimp only
        rw [← hrest]
        change echelonizeFrom remaining _ _ (AlignedBitMatrix.reduce _ _, _) = _
        rw [show (form.matrix.swapRows pivot.1 form.pivots.length).reduce
          (form.pivots.length, pivot.2) = _ from hreduce]
  exact hloop A.rowCount (eliminated_start A) (Nat.zero_add _) (isPivot_pivotOf _ _)

end EchelonForm

end QdkEc
