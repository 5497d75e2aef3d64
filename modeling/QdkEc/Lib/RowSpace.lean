import QdkEc.Lib.Bits

/-!
# Row spaces over two elements

Bit sets form a vector space over the field with two elements.  A family of rows
combines along a bit set of coefficients, its row space is the set of its
combinations, and a family in reduced echelon form is determined by its row
space.
-/

namespace QdkEc

namespace Bits

instance : Module (ZMod 2) Bits :=
  AddCommGroup.zmodModule fun b => by
    rw [two_nsmul, add_self]

theorem smul_eq (c : ZMod 2) (b : Bits) : c • b = 0 ∨ c • b = b := by
  rcases (show c = 0 ∨ c = 1 by revert c; decide) with rfl | rfl
  · exact Or.inl (zero_smul _ b)
  · exact Or.inr (one_smul _ b)

theorem add_eq_zero_iff {a b : Bits} : a + b = 0 ↔ a = b := by
  constructor
  · intro h
    rw [← add_zero a, ← add_self b, ← add_assoc, h, zero_add]
  · rintro rfl
    exact add_self a

/-- The sum of the rows that a bit set selects. -/
def combine (g : ℕ → Bits) (t : Bits) : Bits :=
  (t.support.map g).sum

variable {j : ℕ}

section Combine

variable (g : ℕ → Bits)

@[simp]
theorem combine_zero : combine g 0 = 0 := by
  simp [combine]

@[simp]
theorem combine_unit (i : ℕ) : combine g (unit i) = g i := by
  simp [combine]

theorem combine_unit_add (i : ℕ) (t : Bits) : combine g (unit i + t) = g i + combine g t := by
  have habsent : ∀ {t : Bits}, t.index i = false →
      combine g (unit i + t) = g i + combine g t := by
    intro t h
    have hperm := (support_unit_add_perm h).map g
    rw [combine, hperm.sum_eq, List.map_cons, List.sum_cons]
    rfl
  cases h : t.index i with
  | false => exact habsent h
  | true =>
    have hrest := habsent (t := unit i + t) (by simp [h])
    rw [add_add_cancel_left] at hrest
    rw [hrest, add_add_cancel_left]

@[simp]
theorem combine_add (s t : Bits) : combine g (s + t) = combine g s + combine g t := by
  induction s using unit_induction with
  | zero => simp
  | unit_add i s _ ih => rw [add_assoc, combine_unit_add, ih, combine_unit_add, add_assoc]

/-- Combining is additive. -/
def combineHom : Bits →+ Bits where
  toFun := combine g
  map_zero' := combine_zero g
  map_add' := combine_add g

variable {t : Bits}

theorem combine_congr {g h : ℕ → Bits} {n : ℕ} (ht : t.Below n) (hgh : ∀ i, i < n → g i = h i) :
    combine g t = combine h t := by
  unfold combine
  congr 1
  refine List.map_congr_left fun i hi => hgh i ?_
  exact ht.lt_of_index (mem_support.mp hi)

/-- Combinations of combinations are combinations. -/
theorem combine_combine (h : ℕ → Bits) (t : Bits) :
    combine g (combine h t) = combine (fun i => combine g (h i)) t := by
  induction t using unit_induction with
  | zero => simp
  | unit_add i t _ ih => rw [combine_unit_add, combine_add, ih, combine_unit_add]

theorem map_combine (φ : Bits →+ Bits) (t : Bits) :
    φ (combine g t) = combine (fun i => φ (g i)) t := by
  induction t using unit_induction with
  | zero => simp
  | unit_add i t _ ih => rw [combine_unit_add, map_add, ih, combine_unit_add]

@[simp]
theorem combine_units (t : Bits) : combine unit t = t :=
  ofList_support t

theorem index_combine_eq_false (h : ∀ i, t.index i = true → (g i).index j = false) :
    (combine g t).index j = false := by
  have hlist : ∀ l : List ℕ, (∀ i ∈ l, (g i).index j = false) →
      ((l.map g).sum).index j = false := by
    intro l
    induction l with
    | nil =>
      intro _
      exact index_zero j
    | cons i l ih =>
      intro hl
      rw [List.map_cons, List.sum_cons, index_add, hl i (by simp),
        ih fun k hk => hl k (by simp [hk])]
      rfl
  exact hlist _ fun i hi => h i (mem_support.mp hi)

theorem combine_eq_zero (h : ∀ i, t.index i = true → g i = 0) : combine g t = 0 := by
  refine ext_index fun j => ?_
  rw [index_zero]
  exact index_combine_eq_false g fun i hi => by rw [h i hi, index_zero]

theorem below_combine {n : ℕ} (h : ∀ i, t.index i = true → (g i).Below n) :
    (combine g t).Below n := by
  rw [below_iff]
  intro j hj
  exact index_combine_eq_false g fun i hi => (h i hi).index_eq_false hj

theorem dot_combine {v r : Bits} (hrow : ∀ i, dot (g i) v = r.index i) (t : Bits) :
    dot (combine g t) v = dot t r := by
  induction t using unit_induction with
  | zero => simp
  | unit_add i t _ ih => rw [combine_unit_add, dot_add_left, ih, hrow, dot_add_left, dot_unit_left]

theorem index_combine {r : Bits} (hrow : ∀ i, (g i).index j = r.index i) (t : Bits) :
    (combine g t).index j = dot t r := by
  rw [← dot_unit_right]
  exact dot_combine g (fun i => by rw [dot_unit_right, hrow]) t

end Combine

/-- Keeping the bits below a position is additive. -/
def lowHom (n : ℕ) : Bits →+ Bits where
  toFun := low n
  map_zero' := low_eq_self (below_zero n)
  map_add' a b := by
    refine ext_index fun i => ?_
    by_cases h : i < n <;> simp [h]

theorem low_add (n : ℕ) (a b : Bits) : low n (a + b) = low n a + low n b :=
  map_add (lowHom n) a b

theorem low_combine (n : ℕ) (g : ℕ → Bits) (t : Bits) :
    low n (combine g t) = combine (fun i => low n (g i)) t :=
  map_combine g (lowHom n) t

/-- The combinations of the first `n` rows. -/
def rowSpace (n : ℕ) (g : ℕ → Bits) : Submodule (ZMod 2) Bits where
  carrier := {v | ∃ t : Bits, t.Below n ∧ combine g t = v}
  zero_mem' := ⟨0, below_zero n, combine_zero g⟩
  add_mem' := by
    rintro _ _ ⟨s, hs, rfl⟩ ⟨t, ht, rfl⟩
    exact ⟨s + t, hs.add ht, combine_add g s t⟩
  smul_mem' := by
    rintro c _ ⟨t, ht, rfl⟩
    rcases smul_eq c (combine g t) with h | h
    · exact ⟨0, below_zero n, by rw [h, combine_zero]⟩
    · exact ⟨t, ht, h.symm⟩

theorem mem_rowSpace {n : ℕ} {g : ℕ → Bits} {v : Bits} :
    v ∈ rowSpace n g ↔ ∃ t : Bits, t.Below n ∧ combine g t = v :=
  Iff.rfl

theorem row_mem_rowSpace {n i : ℕ} (g : ℕ → Bits) (hi : i < n) : g i ∈ rowSpace n g :=
  ⟨unit i, below_unit.mpr hi, combine_unit g i⟩

theorem combine_mem {V : Submodule (ZMod 2) Bits} {g : ℕ → Bits} {t : Bits}
    (h : ∀ i, t.index i = true → g i ∈ V) : combine g t ∈ V := by
  refine V.toAddSubmonoid.list_sum_mem ?_
  rintro _ hv
  obtain ⟨i, hi, rfl⟩ := List.mem_map.mp hv
  exact h i (mem_support.mp hi)

theorem rowSpace_congr {n : ℕ} {g h : ℕ → Bits} (hgh : ∀ i, i < n → g i = h i) :
    rowSpace n g = rowSpace n h := by
  ext v
  exact exists_congr fun t => and_congr_right fun ht => by rw [combine_congr ht hgh]

theorem rowSpace_le {n : ℕ} {g : ℕ → Bits} {V : Submodule (ZMod 2) Bits} :
    rowSpace n g ≤ V ↔ ∀ i, i < n → g i ∈ V := by
  constructor
  · intro h i hi
    exact h (row_mem_rowSpace g hi)
  · rintro h _ ⟨t, ht, rfl⟩
    exact combine_mem fun i hi => h i (ht.lt_of_index hi)

theorem ncard_below (n : ℕ) : {b : Bits | Below n b}.ncard = 2 ^ n := by
  have hmask : Function.Injective Bits.mask := fun _ _ h => Bits.ext h
  have himage : Bits.mask '' {b : Bits | Below n b} = Set.Iio (2 ^ n) := by
    refine Set.ext fun k => ⟨?_, fun hk => ⟨⟨k⟩, hk, rfl⟩⟩
    rintro ⟨b, hb, rfl⟩
    exact hb
  rw [← Set.ncard_image_of_injective _ hmask, himage, Set.ncard_eq_toFinset_card',
    Set.toFinset_Iio, Nat.card_Iio]

/-- The first `n` rows of two families are dual bases of the bit sets below `n`: the square matrices
are inverse up to transposition. -/
structure DualRows (n : ℕ) (t s : ℕ → Bits) : Prop where
  below_left : ∀ i, i < n → (t i).Below n
  below_right : ∀ i, i < n → (s i).Below n
  dot_eq : ∀ i j, i < n → j < n → dot (t i) (s j) = decide (i = j)

namespace DualRows

variable {n : ℕ} {t s : ℕ → Bits}

theorem units (n : ℕ) : DualRows n unit unit where
  below_left _ hi := below_unit.mpr hi
  below_right _ hi := below_unit.mpr hi
  dot_eq i j _ _ := by simp

theorem dot_combine_left (h : DualRows n t s) {c : Bits} (hc : c.Below n) (hj : j < n) :
    dot (combine t c) (s j) = c.index j := by
  have hsum : combine t c = combine (fun i => if i < n then t i else 0) c :=
    combine_congr hc fun i hi => by rw [if_pos hi]
  rw [hsum, dot_combine (r := unit j) _ ?_ c, dot_unit_right]
  intro i
  split_ifs with hi
  · rw [h.dot_eq i j hi hj, index_unit]
    simp [eq_comm]
  · rw [dot_zero_left, index_unit, decide_eq_false (by omega)]

theorem combine_injective (h : DualRows n t s) {c d : Bits} (hc : c.Below n) (hd : d.Below n)
    (heq : combine t c = combine t d) : c = d := by
  refine ext_index fun j => ?_
  rcases Nat.lt_or_ge j n with hj | hj
  · rw [← h.dot_combine_left hc hj, heq, h.dot_combine_left hd hj]
  · rw [hc.index_eq_false hj, hd.index_eq_false hj]

theorem exists_combine (h : DualRows n t s) {b : Bits} (hb : b.Below n) :
    ∃ c : Bits, c.Below n ∧ combine t c = b := by
  have hfinite : Finite {c : Bits // c.Below n} := finite_below n
  let f : {c : Bits // c.Below n} → {c : Bits // c.Below n} := fun c =>
    ⟨combine t c.1, below_combine t fun i hi => h.below_left i (c.2.lt_of_index hi)⟩
  have hinjective : Function.Injective f := by
    intro c d hcd
    exact Subtype.ext (h.combine_injective c.2 d.2 (congrArg Subtype.val hcd))
  obtain ⟨c, hc⟩ := (Finite.injective_iff_surjective.mp hinjective) ⟨b, hb⟩
  exact ⟨c.1, c.2, congrArg Subtype.val hc⟩

theorem rowSpace_transform (h : DualRows n t s) (g : ℕ → Bits) :
    rowSpace n (fun i => combine g (t i)) = rowSpace n g := by
  refine Submodule.ext fun v => ⟨?_, ?_⟩
  · rintro ⟨c, hc, rfl⟩
    rw [← combine_combine]
    exact ⟨_, below_combine t fun i hi => h.below_left i (hc.lt_of_index hi), rfl⟩
  · rintro ⟨b, hb, rfl⟩
    obtain ⟨c, hc, rfl⟩ := h.exists_combine hb
    exact ⟨c, hc, (combine_combine g t c).symm⟩

theorem addRow (h : DualRows n t s) {i p : ℕ} (hi : i < n) (hp : p < n) (hip : i ≠ p) :
    DualRows n (fun j => if j = i then t i + t p else t j)
      (fun j => if j = p then s p + s i else s j) where
  below_left j hj := by
    split_ifs
    · exact (h.below_left i hi).add (h.below_left p hp)
    · exact h.below_left j hj
  below_right j hj := by
    split_ifs
    · exact (h.below_right p hp).add (h.below_right i hi)
    · exact h.below_right j hj
  dot_eq j k hj hk := by
    split_ifs with hji hkp hkp
    · subst hji hkp
      simp [h.dot_eq, hi, hp, hip, hip.symm]
    · subst hji
      rw [dot_add_left, h.dot_eq j k hi hk, h.dot_eq p k hp hk, decide_eq_false (Ne.symm hkp),
        Bool.xor_false]
    · subst hkp
      rw [dot_add_right, h.dot_eq j k hj hp, h.dot_eq j i hj hi, decide_eq_false hji,
        Bool.xor_false]
    · exact h.dot_eq j k hj hk

theorem permute (h : DualRows n t s) (σ : Equiv.Perm ℕ) (hσ : ∀ i, i < n → σ i < n) :
    DualRows n (fun i => t (σ i)) (fun i => s (σ i)) where
  below_left i hi := h.below_left _ (hσ i hi)
  below_right i hi := h.below_right _ (hσ i hi)
  dot_eq i j hi hj := by
    rw [h.dot_eq _ _ (hσ i hi) (hσ j hj)]
    simp

end DualRows

/-- Rows in reduced echelon form with the given pivots. -/
structure Reduced (g : ℕ → Bits) (pivots : List ℕ) : Prop where
  sorted : pivots.Pairwise (· < ·)
  leading : ∀ i (hi : i < pivots.length) j, j < pivots[i] → (g i).index j = false
  pivot : ∀ i j (hj : j < pivots.length), (g i).index pivots[j] = decide (i = j)
  zero : ∀ i, pivots.length ≤ i → g i = 0

namespace Reduced

variable {g : ℕ → Bits} {pivots : List ℕ} {n : ℕ}

theorem combine_eq_low (h : Reduced g pivots) (t : Bits) :
    combine g t = combine g (low pivots.length t) := by
  induction t using unit_induction with
  | zero => rw [low_eq_self (below_zero _)]
  | unit_add i t _ ih =>
    rw [low_add, combine_add, combine_add, ← ih]
    rcases Nat.lt_or_ge i pivots.length with hi | hi
    · rw [low_eq_self (below_unit.mpr hi)]
    · have hlow : low pivots.length (unit i) = 0 := by
        refine ext_index fun j => ?_
        rw [index_low, index_unit, index_zero]
        by_cases hj : j < pivots.length
        · rw [decide_eq_false (by omega : ¬ i = j), Bool.and_false]
        · rw [decide_eq_false hj, Bool.false_and]
      rw [hlow, combine_unit, combine_zero, h.zero i hi]

theorem index_combine_pivot (h : Reduced g pivots) (t : Bits) (hj : j < pivots.length) :
    (combine g t).index pivots[j] = t.index j := by
  rw [index_combine (r := unit j) g ?_ t, dot_unit_right]
  intro i
  rw [h.pivot i j hj, index_unit]
  simp [eq_comm]

/-- The coefficients that a bit set has at the pivots. -/
def coefficients (pivots : List ℕ) (v : Bits) : Bits :=
  fromIndices ((List.range pivots.length).filter fun i => v.index (pivots.getD i 0))

@[simp]
theorem index_coefficients (hj : j < pivots.length) (v : Bits) :
    (coefficients pivots v).index j = v.index pivots[j] := by
  simp [coefficients, hj]

theorem below_coefficients (v : Bits) : (coefficients pivots v).Below pivots.length := by
  rw [below_iff]
  intro i hi
  simp [coefficients]
  omega

section

variable (h : Reduced g pivots)

include h

theorem coefficients_combine {t : Bits} (ht : t.Below pivots.length) :
    coefficients pivots (combine g t) = t := by
  refine ext_index fun j => ?_
  rcases Nat.lt_or_ge j pivots.length with hj | hj
  · rw [index_coefficients hj, h.index_combine_pivot t hj]
  · rw [ht.index_eq_false hj, (below_coefficients _).index_eq_false hj]

theorem mem_rowSpace_iff (hn : pivots.length ≤ n) {v : Bits} :
    v ∈ rowSpace n g ↔ combine g (coefficients pivots v) = v := by
  constructor
  · rintro ⟨t, _, rfl⟩
    rw [h.combine_eq_low t, h.coefficients_combine (below_low _ t)]
  · intro hv
    exact ⟨_, (below_coefficients v).mono hn, hv⟩

theorem rowSpace_eq_rowSpace_length (hn : pivots.length ≤ n) :
    rowSpace n g = rowSpace pivots.length g := by
  refine Submodule.ext fun v => ⟨?_, ?_⟩
  · rintro ⟨t, _, rfl⟩
    exact ⟨low pivots.length t, below_low _ t, (h.combine_eq_low t).symm⟩
  · rintro ⟨t, ht, rfl⟩
    exact ⟨t, ht.mono hn, rfl⟩

theorem eq_zero_of_pivots (hn : pivots.length ≤ n) {v : Bits}
    (hv : v ∈ rowSpace n g) (hzero : ∀ j (hj : j < pivots.length), v.index pivots[j] = false) :
    v = 0 := by
  have hcoefficients : coefficients pivots v = 0 := by
    refine ext_index fun j => ?_
    rw [index_zero]
    rcases Nat.lt_or_ge j pivots.length with hj | hj
    · rw [index_coefficients hj, hzero j hj]
    · exact (below_coefficients _).index_eq_false hj
  rw [← (h.mem_rowSpace_iff hn).mp hv, hcoefficients, combine_zero]

theorem mem_pivots_iff (hn : pivots.length ≤ n) : j ∈ pivots ↔
      ∃ v ∈ rowSpace n g, v.index j = true ∧ ∀ k, k < j → v.index k = false := by
  constructor
  · intro hj
    obtain ⟨i, hi, rfl⟩ := List.mem_iff_getElem.mp hj
    refine ⟨g i, row_mem_rowSpace g (by omega), ?_, h.leading i hi⟩
    rw [h.pivot i i hi, decide_eq_true rfl]
  · rintro ⟨v, hv, hbit, hbefore⟩
    by_contra hnot
    refine absurd ((h.eq_zero_of_pivots hn hv fun i hi => ?_) ▸ hbit) (by simp)
    -- A pivot before `j` reads nothing, and the row of a later pivot begins after `j`.
    by_contra hset
    rw [Bool.not_eq_false] at hset
    rw [← (h.mem_rowSpace_iff hn).mp hv] at hbit
    have hfirst : (combine g (coefficients pivots v)).index j = false := by
      have hrow : ∀ k, (coefficients pivots v).index k = true → (g k).index j = false := by
        intro k hk
        have hklt : k < pivots.length := (below_coefficients v).lt_of_index hk
        rw [index_coefficients hklt] at hk
        refine h.leading k hklt j ?_
        rcases Nat.lt_trichotomy pivots[k] j with hlt' | heq | hlt'
        · rw [hbefore _ hlt'] at hk
          cases hk
        · exact absurd (heq ▸ List.getElem_mem hklt) hnot
        · exact hlt'
      exact index_combine_eq_false g hrow
    rw [hfirst] at hbit
    cases hbit

theorem unique {g' : ℕ → Bits} {pivots' : List ℕ} {n' : ℕ}
    (h' : Reduced g' pivots') (hn : pivots.length ≤ n) (hn' : pivots'.length ≤ n')
    (hspace : rowSpace n g = rowSpace n' g') : pivots = pivots' ∧ g = g' := by
  have hmem : ∀ j, j ∈ pivots ↔ j ∈ pivots' := by
    intro j
    rw [h.mem_pivots_iff hn, h'.mem_pivots_iff hn', hspace]
  have hpivots : pivots = pivots' := by
    refine List.Perm.eq_of_pairwise ?_ h.sorted h'.sorted ?_
    · intro a b _ _ hab hba
      omega
    · refine (List.perm_ext_iff_of_nodup ?_ ?_).mpr hmem
      · exact h.sorted.imp fun hab => Nat.ne_of_lt hab
      · exact h'.sorted.imp fun hab => Nat.ne_of_lt hab
  subst hpivots
  refine ⟨rfl, funext fun i => ?_⟩
  rcases Nat.lt_or_ge i pivots.length with hi | hi
  · have hdiff : g i + g' i = 0 := by
      refine h.eq_zero_of_pivots hn ?_ fun j hj => ?_
      · refine Submodule.add_mem _ (row_mem_rowSpace g (by omega)) ?_
        rw [hspace]
        exact row_mem_rowSpace g' (by omega)
      · rw [index_add, h.pivot i j hj, h'.pivot i j hj, Bool.xor_self]
    exact add_eq_zero_iff.mp hdiff
  · rw [h.zero i hi, h'.zero i hi]

end

end Reduced

end Bits

end QdkEc
