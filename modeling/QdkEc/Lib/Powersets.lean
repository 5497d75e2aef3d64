import QdkEc.Lib.Bits

/-!
# Powersets of lists

This module enumerates the sublists of a list by their length, and those of one
length in the order of their positions.  The sublists of the first numbers are
the supports of the bit sets below a bound.
-/

namespace QdkEc

open List

variable {α β : Type}

/-- The sublists of some length, in the order of their positions. -/
def combinations : ℕ → List α → List (List α)
  | 0, _ => [[]]
  | _ + 1, [] => []
  | k + 1, a :: l => (combinations k l).map (a :: ·) ++ combinations (k + 1) l

/-- The sublists, the shorter ones first. -/
def powerset (l : List α) : List (List α) :=
  (List.range (l.length + 1)).flatMap fun k => combinations k l

theorem combinations_perm (k : ℕ) (l : List α) :
    (combinations k l).Perm (List.sublistsLen k l) := by
  induction l generalizing k with
  | nil =>
    cases k with
    | zero => exact List.Perm.refl _
    | succ k => exact List.Perm.refl _
  | cons a l ih =>
    cases k with
    | zero =>
      exact List.Perm.refl _
    | succ k =>
      rw [combinations, sublistsLen_succ_cons]
      exact (((ih k).map _).append (ih (k + 1))).trans perm_append_comm

theorem powerset_perm (l : List α) : (powerset l).Perm (List.sublists' l) :=
  (List.Perm.flatMap_left _ fun k _ => combinations_perm k l).trans
    (range_bind_sublistsLen_perm l)

theorem mem_powerset {s l : List α} : s ∈ powerset l ↔ s.Sublist l :=
  (powerset_perm l).mem_iff.trans mem_sublists'

theorem nodup_powerset {l : List α} (hl : l.Nodup) : (powerset l).Nodup :=
  (powerset_perm l).nodup_iff.mpr (nodup_sublists'.mpr hl)

theorem length_powerset (l : List α) : (powerset l).length = 2 ^ l.length :=
  (powerset_perm l).length_eq.trans (length_sublists' l)

theorem combinations_map (f : α → β) (k : ℕ) (l : List α) :
    combinations k (l.map f) = (combinations k l).map (List.map f) := by
  induction l generalizing k with
  | nil => cases k <;> rfl
  | cons a l ih =>
    cases k with
    | zero => rfl
    | succ k =>
      rw [map_cons, combinations, ih, ih, combinations, map_append, map_map, map_map]
      rfl

theorem powerset_map (f : α → β) (l : List α) :
    powerset (l.map f) = (powerset l).map (List.map f) := by
  simp only [powerset, length_map, map_flatMap, combinations_map]

theorem support_ofList_of_sublist {s : List ℕ} {n : ℕ} (hs : s.Sublist (List.range n)) :
    (Bits.ofList s).Below n ∧ (Bits.ofList s).support = s := by
  have hsorted := pairwise_lt_range.sublist hs
  have hnodup : s.Nodup := hsorted.imp Nat.ne_of_lt
  refine ⟨Bits.below_iff.mpr fun i hi => ?_, ?_⟩
  · rw [Bits.index_ofList hnodup, decide_eq_false]
    intro hmem
    have := mem_range.mp (hs.subset hmem)
    omega
  · have hperm : (Bits.ofList s).support.Perm s :=
      Bits.support_perm hnodup fun i => by rw [Bits.index_ofList hnodup, decide_eq_true_iff]
    exact hperm.eq_of_pairwise (fun i j _ _ hij hji => absurd hij (lt_asymm hji))
      (Bits.pairwise_support _) hsorted

theorem support_sublist_range {b : Bits} {n : ℕ} (hb : b.Below n) :
    b.support.Sublist (List.range n) := by
  rw [hb.support_eq]
  exact filter_sublist

end QdkEc
