import Mathlib.Data.Nat.Bitwise
import Mathlib.Tactic

/-!
# Finite bit sets

This module develops finite sets of bit positions, packed into one natural
number, as an elementary abelian two-group: addition is bitwise exclusive or.
The pairing `dot` counts common positions modulo two.
-/

namespace QdkEc

open List Nat

/-- A finite set of bit positions, packed into a mask. -/
@[ext]
structure Bits where
  mask : ℕ
deriving DecidableEq

namespace Bits

/-- The bit stored at a position. -/
def index (b : Bits) (i : ℕ) : Bool :=
  b.mask.testBit i

theorem ext_index {a b : Bits} (h : ∀ i, a.index i = b.index i) : a = b := by
  cases a
  cases b
  congr 1
  exact eq_of_testBit_eq h

instance : Zero Bits := ⟨⟨0⟩⟩

instance : Add Bits := ⟨fun a b => ⟨a.mask ^^^ b.mask⟩⟩

instance : Neg Bits := ⟨fun a => a⟩

/-- The positions common to two bit sets. -/
def inter (a b : Bits) : Bits :=
  ⟨a.mask &&& b.mask⟩

/-- The singleton bit set. -/
def unit (i : ℕ) : Bits :=
  ⟨2 ^ i⟩

variable (i : ℕ)

@[simp]
theorem index_zero : (0 : Bits).index i = false :=
  zero_testBit i

@[simp]
theorem index_add (a b : Bits) (i : ℕ) : (a + b).index i = (a.index i ^^ b.index i) :=
  testBit_xor a.mask b.mask i

@[simp]
theorem index_inter (a b : Bits) (i : ℕ) : (inter a b).index i = (a.index i && b.index i) :=
  testBit_and a.mask b.mask i

@[simp]
theorem index_unit (i j : ℕ) : (unit i).index j = decide (i = j) :=
  testBit_two_pow

theorem unit_injective : Function.Injective unit := by
  intro i j h
  have hindex := congrArg (index · j) h
  simpa using hindex

variable (a : Bits)

@[simp]
theorem neg_eq : -a = a :=
  rfl

@[simp]
theorem add_self : a + a = 0 := by
  apply ext_index
  intro i
  simp

instance : AddCommGroup Bits where
  add_assoc a b c := by
    apply ext_index
    intro i
    simp
  zero_add a := by
    apply ext_index
    intro i
    simp
  add_zero a := by
    apply ext_index
    intro i
    simp
  add_comm a b := by
    apply ext_index
    intro i
    simp [Bool.xor_comm]
  neg_add_cancel a := by simp
  nsmul := nsmulRec
  zsmul := zsmulRec

@[simp]
theorem add_add_cancel_left (a b : Bits) : a + (a + b) = b := by
  rw [← add_assoc, add_self, zero_add]

/-- The positions of a bit set in increasing order. -/
def support (b : Bits) : List ℕ :=
  (List.range (b.mask.log2 + 1)).filter b.index

variable {b : Bits}

theorem index_eq_false_of_log2_lt {i : ℕ} (h : b.mask.log2 < i) : b.index i = false := by
  apply Nat.testBit_lt_two_pow
  exact lt_of_lt_of_le Nat.lt_log2_self (Nat.pow_le_pow_right (by omega) h)

@[simp]
theorem mem_support {i : ℕ} : i ∈ b.support ↔ b.index i = true := by
  constructor
  · intro h
    exact (mem_filter.mp h).2
  · intro h
    refine mem_filter.mpr ⟨?_, h⟩
    rw [mem_range]
    by_contra hlarge
    have hfalse : b.index i = false := index_eq_false_of_log2_lt (by omega)
    simp [hfalse] at h

theorem nodup_support (b : Bits) : b.support.Nodup :=
  List.Nodup.filter _ nodup_range

@[simp]
theorem support_zero : (0 : Bits).support = [] := by
  decide

theorem support_perm {l : List ℕ} (hl : l.Nodup) (hmem : ∀ i, i ∈ l ↔ b.index i = true) :
    b.support.Perm l := by
  rw [perm_ext_iff_of_nodup b.nodup_support hl]
  intro i
  rw [mem_support, hmem]

theorem support_unit_perm : (unit i).support.Perm [i] := by
  apply support_perm (nodup_singleton i)
  intro j
  simp [eq_comm]

@[simp]
theorem support_unit : (unit i).support = [i] :=
  perm_singleton.mp (support_unit_perm i)

theorem support_unit_add_perm {i : ℕ} (h : b.index i = false) :
    (unit i + b).support.Perm (i :: b.support) := by
  apply support_perm
  · simp [nodup_support, h]
  · intro j
    by_cases hij : j = i
    · subst hij
      simp [h]
    · simp [hij, Ne.symm hij]

/-- The bit set whose positions are those of a duplicate-free list. -/
def ofList (l : List ℕ) : Bits :=
  (l.map unit).sum

@[simp]
theorem ofList_nil : ofList [] = 0 :=
  rfl

@[simp]
theorem ofList_cons (l : List ℕ) : ofList (i :: l) = unit i + ofList l :=
  sum_cons

theorem index_ofList {l : List ℕ} (hl : l.Nodup) (i : ℕ) : (ofList l).index i = decide (i ∈ l) := by
  induction l with
  | nil => simp
  | cons j l ih =>
    obtain ⟨hj, hl⟩ := nodup_cons.mp hl
    rw [ofList_cons, index_add, ih hl, index_unit]
    by_cases hij : i = j
    · subst hij
      simp [hj]
    · simp [hij, Ne.symm hij]

theorem ofList_support (b : Bits) : ofList b.support = b := by
  apply ext_index
  intro i
  rw [index_ofList b.nodup_support]
  simp

@[simp]
theorem support_eq_nil_iff : b.support = [] ↔ b = 0 := by
  constructor
  · intro h
    rw [← ofList_support b, h, ofList_nil]
  · rintro rfl
    exact support_zero

/-- The bit set of the positions in a list, which may repeat. -/
def fromIndices : List ℕ → Bits
  | [] => 0
  | i :: l => ⟨2 ^ i ||| (fromIndices l).mask⟩

@[simp]
theorem index_fromIndices (l : List ℕ) (i : ℕ) : (fromIndices l).index i = decide (i ∈ l) := by
  induction l with
  | nil => simp [fromIndices]
  | cons j l ih =>
    have hcons : (fromIndices (j :: l)).index i = ((unit j).index i || (fromIndices l).index i) :=
      testBit_or (2 ^ j) (fromIndices l).mask i
    rw [hcons, ih, index_unit]
    by_cases hij : i = j
    · simp [hij]
    · simp [hij, Ne.symm hij]

theorem unit_induction {motive : Bits → Prop} (zero : motive 0)
    (unit_add : ∀ i a, a.index i = false → motive a → motive (unit i + a)) (b : Bits) :
    motive b := by
  suffices hlist : ∀ l : List ℕ, l.Nodup → motive (ofList l) by
    have h := hlist b.support b.nodup_support
    rwa [ofList_support] at h
  intro l hl
  induction l with
  | nil => exact zero
  | cons i l ih =>
    obtain ⟨hi, hl⟩ := nodup_cons.mp hl
    apply unit_add i _ _ (ih hl)
    rw [index_ofList hl]
    simpa using hi

/-- No bit is stored at or beyond position `n`. -/
def Below (n : ℕ) (b : Bits) : Prop :=
  b.mask < 2 ^ n

instance (n : ℕ) (b : Bits) : Decidable (Below n b) :=
  inferInstanceAs (Decidable (_ < _))

variable {n : ℕ}

theorem below_iff : Below n b ↔ ∀ i, n ≤ i → b.index i = false := by
  constructor
  · intro h i hi
    exact Nat.testBit_lt_two_pow (lt_of_lt_of_le h (Nat.pow_le_pow_right (by omega) hi))
  · intro h
    exact Nat.lt_pow_two_of_testBit _ h

theorem Below.index_eq_false {n i : ℕ} (h : Below n b) (hi : n ≤ i) : b.index i = false :=
  below_iff.mp h i hi

theorem Below.lt_of_index {n i : ℕ} (h : Below n b) (hi : b.index i = true) : i < n := by
  by_contra hlarge
  rw [h.index_eq_false (by omega)] at hi
  contradiction

@[simp]
theorem below_zero (n : ℕ) : Below n 0 := by
  rw [below_iff]
  simp

theorem Below.add {a b : Bits} (ha : Below n a) (hb : Below n b) : Below n (a + b) := by
  rw [below_iff] at *
  intro i hi
  simp [ha i hi, hb i hi]

theorem Below.mono {m n : ℕ} (h : Below m b) (hmn : m ≤ n) : Below n b := by
  rw [below_iff] at *
  intro i hi
  exact h i (by omega)

theorem below_unit {n i : ℕ} : Below n (unit i) ↔ i < n := by
  constructor
  · intro h
    exact h.lt_of_index (by simp)
  · intro h
    rw [below_iff]
    intro j hj
    simp
    omega

theorem finite_below (n : ℕ) : {b : Bits | Below n b}.Finite := by
  apply Set.Finite.of_finite_image (f := Bits.mask)
  · exact (Set.finite_lt_nat (2 ^ n)).subset (by rintro _ ⟨b, hb, rfl⟩; exact hb)
  · intro a _ b _ h
    exact Bits.ext h

theorem pairwise_support (b : Bits) : b.support.Pairwise (· < ·) :=
  pairwise_lt_range.filter _

theorem Below.support_eq (h : b.Below n) : b.support = (List.range n).filter b.index := by
  have hperm : b.support.Perm ((List.range n).filter b.index) := by
    refine support_perm (nodup_range.filter _) fun i => ?_
    rw [mem_filter, mem_range]
    exact and_iff_right_of_imp h.lt_of_index
  have hsorted : ((List.range n).filter b.index).Pairwise (· < ·) :=
    pairwise_lt_range.filter _
  exact hperm.eq_of_pairwise (fun i j _ _ hij hji => absurd hij (lt_asymm hji))
    b.pairwise_support hsorted

/-- The bits of `b` below position `n`. -/
def low (n : ℕ) (b : Bits) : Bits :=
  ⟨b.mask % 2 ^ n⟩

@[simp]
theorem index_low (n i : ℕ) (b : Bits) : (low n b).index i = (decide (i < n) && b.index i) :=
  testBit_mod_two_pow b.mask n i

theorem below_low (n : ℕ) (b : Bits) : Below n (low n b) := by
  rw [below_iff]
  intro i hi
  simp
  omega

theorem low_eq_self (h : Below n b) : low n b = b :=
  Bits.ext (mod_eq_of_lt h)

theorem low_eq_self_iff : low n b = b ↔ b.Below n := by
  refine ⟨fun h => ?_, low_eq_self⟩
  rw [← h]
  exact below_low n b

theorem low_low {m n : ℕ} (h : n ≤ m) (b : Bits) : low m (low n b) = low n b :=
  low_eq_self ((below_low n b).mono h)

/-- The bits of `b` from position `n` on, moved down to position zero. -/
def shiftDown (n : ℕ) (b : Bits) : Bits :=
  ⟨b.mask >>> n⟩

@[simp]
theorem index_shiftDown (n i : ℕ) (b : Bits) : (shiftDown n b).index i = b.index (n + i) :=
  testBit_shiftRight b.mask

/-- The bits of `b` moved up by `n` positions. -/
def shiftUp (n : ℕ) (b : Bits) : Bits :=
  ⟨b.mask <<< n⟩

@[simp]
theorem index_shiftUp (n i : ℕ) (b : Bits) :
    (shiftUp n b).index i = (decide (n ≤ i) && b.index (i - n)) :=
  testBit_shiftLeft b.mask

/-- The parity of the number of positions. -/
def parity (b : Bits) : Bool :=
  b.support.length % 2 == 1

/-- The parity of the number of common positions. -/
def dot (a b : Bits) : Bool :=
  (inter a b).parity

@[simp]
theorem parity_zero : (0 : Bits).parity = false := by
  decide

theorem parity_unit_add_of_absent {i : ℕ} (h : b.index i = false) :
    (unit i + b).parity = !b.parity := by
  have hlen := (support_unit_add_perm h).length_eq
  unfold parity
  rw [hlen]
  rcases mod_two_eq_zero_or_one b.support.length with h2 | h2 <;>
    simp [add_mod, h2]

theorem parity_unit_add (b : Bits) : (unit i + b).parity = !b.parity := by
  cases h : b.index i with
  | false => exact parity_unit_add_of_absent h
  | true =>
    have habsent : (unit i + b).index i = false := by simp [h]
    have hb := parity_unit_add_of_absent habsent
    rw [add_add_cancel_left] at hb
    rw [hb, Bool.not_not]

theorem parity_add (a b : Bits) : (a + b).parity = (a.parity ^^ b.parity) := by
  induction a using unit_induction with
  | zero => simp
  | unit_add i a _ ih => rw [add_assoc, parity_unit_add, parity_unit_add, ih, Bool.not_xor]

theorem inter_add_left (a b c : Bits) : inter (a + b) c = inter a c + inter b c := by
  apply ext_index
  intro i
  simp only [index_inter, index_add]
  cases a.index i <;> cases b.index i <;> cases c.index i <;> rfl

theorem inter_comm (a b : Bits) : inter a b = inter b a := by
  apply ext_index
  intro i
  simp [Bool.and_comm]

theorem dot_comm (a b : Bits) : dot a b = dot b a := by
  unfold dot
  rw [inter_comm]

@[simp]
theorem dot_add_left (a b c : Bits) : dot (a + b) c = (dot a c ^^ dot b c) := by
  unfold dot
  rw [inter_add_left, parity_add]

@[simp]
theorem dot_add_right (a b c : Bits) : dot a (b + c) = (dot a b ^^ dot a c) := by
  rw [dot_comm, dot_add_left, dot_comm b, dot_comm c]

@[simp]
theorem dot_zero_left : dot 0 a = false := by
  have h : inter 0 a = 0 := by
    apply ext_index
    intro i
    simp
  unfold dot
  rw [h, parity_zero]

@[simp]
theorem dot_zero_right : dot a 0 = false := by
  rw [dot_comm, dot_zero_left]

@[simp]
theorem dot_unit_left (a : Bits) : dot (unit i) a = a.index i := by
  cases h : a.index i with
  | false =>
    have hinter : inter (unit i) a = 0 := by
      apply ext_index
      intro j
      by_cases hij : i = j
      · subst hij
        simp [h]
      · simp [hij]
    unfold dot
    rw [hinter, parity_zero]
  | true =>
    have hinter : inter (unit i) a = unit i + 0 := by
      apply ext_index
      intro j
      by_cases hij : i = j
      · subst hij
        simp [h]
      · simp [hij]
    unfold dot
    rw [hinter, parity_unit_add, parity_zero]
    rfl

@[simp]
theorem dot_unit_right (a : Bits) : dot a (unit i) = a.index i := by
  rw [dot_comm, dot_unit_left]

theorem index_sum_support {g : ℕ → Bits} (row : Bits) {j : ℕ}
    (hrow : ∀ q, (g q).index j = row.index q) (b : Bits) :
    (b.support.map g).sum.index j = dot b row := by
  induction b using unit_induction with
  | zero => simp
  | unit_add i b habsent ih =>
    rw [((support_unit_add_perm habsent).map g).sum_eq, map_cons, sum_cons, index_add,
      hrow, ih, dot_add_left, dot_unit_left]

theorem dot_eq_false_of_disjoint {a b : Bits} (h : ∀ i, a.index i = true → b.index i = false) :
    dot a b = false := by
  have hinter : inter a b = 0 := by
    apply ext_index
    intro i
    cases ha : a.index i with
    | false => simp [ha]
    | true => simp [h i ha]
  unfold dot
  rw [hinter, parity_zero]

theorem dot_low (hb : b.Below n) : dot (low n a) b = dot a b := by
  have hinter : inter (low n a) b = inter a b := by
    refine ext_index fun i => ?_
    rcases lt_or_ge i n with hi | hi
    · simp [hi]
    · simp [hb.index_eq_false hi]
  unfold dot
  rw [hinter]

/-- The sum of the first `n` values of a bit sequence. -/
def xorSum (n : ℕ) (f : ℕ → Bool) : Bool :=
  (List.range n).foldl (fun b i => b ^^ f i) false

@[simp]
theorem xorSum_zero (f : ℕ → Bool) : xorSum 0 f = false :=
  rfl

theorem xorSum_succ (n : ℕ) (f : ℕ → Bool) : xorSum (n + 1) f = (xorSum n f ^^ f n) := by
  simp [xorSum, range_succ]

theorem xorSum_congr {f g : ℕ → Bool} (h : ∀ i, i < n → f i = g i) : xorSum n f = xorSum n g := by
  induction n with
  | zero => rfl
  | succ n ih => rw [xorSum_succ, xorSum_succ, ih fun i hi => h i (by omega), h n (by omega)]

theorem xorSum_xor (n : ℕ) (f g : ℕ → Bool) :
    xorSum n (fun i => f i ^^ g i) = (xorSum n f ^^ xorSum n g) := by
  induction n with
  | zero => rfl
  | succ n ih =>
    rw [xorSum_succ, xorSum_succ, xorSum_succ, ih, Bool.xor_assoc, Bool.xor_assoc,
      Bool.xor_left_comm (xorSum n g)]

theorem xorSum_eq_of_single {n k : ℕ} {f : ℕ → Bool} (hf : ∀ i, i < n → i ≠ k → f i = false) :
    xorSum n f = (decide (k < n) && f k) := by
  induction n with
  | zero => simp
  | succ n ih =>
    rw [xorSum_succ, ih fun i hi => hf i (by omega)]
    rcases lt_trichotomy k n with hk | rfl | hk
    · rw [hf n (by omega) (by omega)]
      simp [hk, lt_succ_of_lt hk]
    · simp
    · rw [hf n (by omega) (by omega)]
      simp [show ¬ k < n by omega, show ¬ k < n + 1 by omega]

end Bits

end QdkEc
