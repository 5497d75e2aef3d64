import Mathlib.Data.List.Nodup
import Mathlib.Logic.Relation
import Mathlib.Order.Basic

/-!
# Recomputing values along dependencies

A network computes the value of every node from the values of the nodes before it
and tells the dependents of a node when its value changes.  This module develops
the depth-first spread of a change: a node that is visited is recomputed, and when
its value is another one it is stored and the dependents are visited.  On a network
without cycles the spread ends, and it ends in the unique assignment that agrees
with every computed value.
-/

namespace QdkEc

open Function Option

/-- Nodes that compute their values from the values of other nodes. -/
@[ext]
structure Network (V A : Type*) where
  /-- The nodes that are visited when the value of a node changes. -/
  dependents : V → List V
  /-- The nodes that have their own data. -/
  loaded : V → Prop
  /-- The value of a node under the values of the others; `none` while one of them is missing. -/
  value : (V → Option A) → V → Option A

namespace Network

variable {V A : Type*} (N : Network V A)

/-- A value depends on the nodes before its node only, which are finitely deep. -/
structure Ordered (rank : V → ℕ)
    (bound : ℕ) : Prop where
  rank_lt : ∀ {u v}, v ∈ N.dependents u → rank u < rank v
  rank_lt_bound : ∀ {u v}, v ∈ N.dependents u → rank v < bound
  value_congr : ∀ {F F' : V → Option A} {v}, (∀ u, v ∈ N.dependents u → F u = F' u) →
    N.value F v = N.value F' v
  isSome_value : ∀ {F : V → Option A} {v}, (N.value F v).isSome ↔
    N.loaded v ∧ ∀ u, v ∈ N.dependents u → (F u).isSome

/-- The stored value of a node is the computed one. -/
def Settled (F : V → Option A) (v : V) : Prop :=
  N.value F v = F v

/-- An assignment that agrees with every computed value. -/
def Solves (F : V → Option A) : Prop :=
  ∀ v, N.Settled F v

/-- A node is an ancestor of itself and of the dependents of its descendants. -/
def Ancestor : V → V → Prop :=
  Relation.ReflTransGen fun u v => v ∈ N.dependents u

/-- A node has a value only while it can be computed. -/
def Grounded (F : V → Option A) : Prop :=
  ∀ v, (F v).isSome → (N.value F v).isSome

variable {v : V}

section Spreads

variable [DecidableEq V]

/-- The depth-first spread from pending nodes, with the nodes whose values are replaced. -/
inductive Spreads : (V → Option A) → List V → List V → (V → Option A) → Prop
  | done (F : V → Option A) : Spreads F [] [] F
  | keep {F F' : V → Option A} {v : V} {pending touched : List V} :
      N.value F v = none ∨ N.value F v = F v →
      Spreads F pending touched F' →
      Spreads F (v :: pending) touched F'
  | change {F F' : V → Option A} {v : V} {a : A} {pending touched : List V} :
      N.value F v = some a →
      F v ≠ some a →
      Spreads (Function.update F v (some a)) (N.dependents v ++ pending) touched F' →
      Spreads F (v :: pending) (v :: touched) F'

variable {N}
variable {F F' : V → Option A} {pending touched : List V}

section

variable (h : N.Spreads F pending touched F')

include h

theorem Spreads.unique {touched' : List V} {F'' : V → Option A}
    (h' : N.Spreads F pending touched' F'') : touched = touched' ∧ F' = F'' := by
  induction h generalizing touched' F'' with
  | done F =>
    cases h'
    exact ⟨rfl, rfl⟩
  | keep hkeep _ ih =>
    cases h' with
    | keep _ hrest => exact ih hrest
    | change hvalue hne _ =>
      rcases hkeep with hnone | hsame
      · rw [hnone] at hvalue
        cases hvalue
      · exact absurd (hsame.symm.trans hvalue) hne
  | change hvalue hne _ ih =>
    cases h' with
    | keep hkeep _ =>
      rcases hkeep with hnone | hsame
      · rw [hnone] at hvalue
        cases hvalue
      · exact absurd (hsame.symm.trans hvalue) hne
    | change hvalue' _ hrest =>
      obtain rfl := some_inj.mp (hvalue.symm.trans hvalue')
      obtain ⟨rfl, rfl⟩ := ih hrest
      exact ⟨rfl, rfl⟩

theorem Spreads.append {pending' touched' : List V}
    {F'' : V → Option A} (h' : N.Spreads F' pending' touched' F'') :
    N.Spreads F (pending ++ pending') (touched ++ touched') F'' := by
  induction h with
  | done F => exact h'
  | keep hkeep _ ih => exact .keep hkeep (ih h')
  | change hvalue hne _ ih =>
    refine .change hvalue hne ?_
    have hrest := ih h'
    rwa [List.append_assoc] at hrest

theorem Spreads.eq_of_not_mem (hv : v ∉ touched) :
    F' v = F v := by
  induction h with
  | done F => rfl
  | keep _ _ ih => exact ih hv
  | change _ _ _ ih =>
    rw [List.mem_cons, not_or] at hv
    rw [ih hv.2, update_of_ne hv.1]

theorem Spreads.isSome_of_isSome (hv : (F v).isSome) :
    (F' v).isSome := by
  induction h with
  | done F => exact hv
  | keep _ _ ih => exact ih hv
  | @change F _ w a _ _ _ _ _ ih =>
    refine ih ?_
    rcases eq_or_ne v w with rfl | hne
    · rw [update_self]
      rfl
    · rw [update_of_ne hne]
      exact hv

theorem Spreads.isSome_of_mem (hv : v ∈ touched) :
    (F' v).isSome := by
  induction h with
  | done F => cases hv
  | keep _ _ ih => exact ih hv
  | change _ _ hrest ih =>
    rcases List.mem_cons.mp hv with rfl | hmem
    · refine hrest.isSome_of_isSome ?_
      rw [update_self]
      rfl
    · exact ih hmem

end

end Spreads

section Ordered

variable {N}
variable {rank : V → ℕ} {bound : ℕ} (hN : N.Ordered rank bound)

include hN

theorem Ordered.solves_unique {F F' : V → Option A} (h : N.Solves F) (h' : N.Solves F') :
    F = F' := by
  have hrank : ∀ r v, rank v < r → F v = F' v := by
    intro r
    induction r with
    | zero =>
      intro v hv
      cases hv
    | succ r ih =>
      intro v hv
      calc
        F v = N.value F v := (h v).symm
        _ = N.value F' v := hN.value_congr fun u hu => ih u (by have := hN.rank_lt hu; omega)
        _ = F' v := h' v
  exact funext fun v => hrank _ v (Nat.lt_succ_self _)

theorem Ordered.isSome_iff {F : V → Option A} (h : N.Solves F) (v : V) :
    (F v).isSome ↔ ∀ u, N.Ancestor u v → N.loaded u := by
  have hrank : ∀ r v, rank v < r → ((F v).isSome ↔ ∀ u, N.Ancestor u v → N.loaded u) := by
    intro r
    induction r with
    | zero =>
      intro v hv
      cases hv
    | succ r ih =>
      intro v hv
      rw [← h v, hN.isSome_value]
      constructor
      · rintro ⟨hloaded, hbefore⟩ u hu
        rcases Relation.ReflTransGen.cases_tail hu with rfl | ⟨w, huw, hwv⟩
        · exact hloaded
        · exact (ih w (by have := hN.rank_lt hwv; omega)).mp (hbefore w hwv) u huw
      · intro hall
        refine ⟨hall v .refl, fun w hw => ?_⟩
        refine (ih w (by have := hN.rank_lt hw; omega)).mpr fun u hu => hall u (hu.tail hw)
  exact hrank _ v (Nat.lt_succ_self _)

theorem Ordered.le_solution {F S : V → Option A} (hS : N.Solves S)
    (hF : ∀ v, (F v).isSome → N.Settled F v) {a : A} (ha : F v = some a) : S v = some a := by
  have hrank : ∀ r v a, rank v < r → F v = some a → S v = some a := by
    intro r
    induction r with
    | zero =>
      intro v a hv
      cases hv
    | succ r ih =>
      intro v a hv ha
      have hvalue : N.value F v = some a := (hF v (isSome_iff_exists.mpr ⟨a, ha⟩)).trans ha
      have hbefore := (hN.isSome_value.mp (isSome_iff_exists.mpr ⟨a, hvalue⟩)).2
      rw [← hS v, ← hvalue]
      refine hN.value_congr fun u hu => ?_
      obtain ⟨b, hb⟩ := isSome_iff_exists.mp (hbefore u hu)
      rw [hb]
      exact ih u b (by have := hN.rank_lt hu; omega) hb
  exact hrank _ v a (Nat.lt_succ_self _) ha

variable [DecidableEq V]

theorem Ordered.value_update_of_not_mem (F : V → Option A) {u v : V} (a : Option A)
    (hv : v ∉ N.dependents u) : N.value (Function.update F u a) v = N.value F v :=
  hN.value_congr fun w hw => by
    rw [update_of_ne]
    rintro rfl
    exact hv hw

theorem Ordered.exists_spreads (pending : List V) (F : V → Option A) :
    ∃ touched F', N.Spreads F pending touched F' := by
  -- Visiting a node ends whatever is pending behind it, by induction on the depth below the node.
  have hvisit : ∀ r v, bound - rank v ≤ r → ∀ pending : List V,
      (∀ F : V → Option A, ∃ touched F', N.Spreads F pending touched F') →
        ∀ F : V → Option A, ∃ touched F', N.Spreads F (v :: pending) touched F' := by
    intro r
    induction r with
    | zero =>
      intro v hv pending hpending F
      have hnone : N.dependents v = [] := by
        refine List.eq_nil_iff_forall_not_mem.mpr fun w hw => ?_
        have h₁ := hN.rank_lt hw
        have h₂ := hN.rank_lt_bound hw
        omega
      by_cases hkeep : N.value F v = none ∨ N.value F v = F v
      · obtain ⟨touched, F', h⟩ := hpending F
        exact ⟨touched, F', .keep hkeep h⟩
      · rw [not_or] at hkeep
        obtain ⟨a, ha⟩ := ne_none_iff_exists'.mp hkeep.1
        obtain ⟨touched, F', h⟩ := hpending (Function.update F v (some a))
        refine ⟨v :: touched, F', .change ha (fun heq => hkeep.2 (ha.trans heq.symm)) ?_⟩
        rw [hnone]
        exact h
    | succ r ih =>
      intro v hv pending hpending F
      by_cases hkeep : N.value F v = none ∨ N.value F v = F v
      · obtain ⟨touched, F', h⟩ := hpending F
        exact ⟨touched, F', .keep hkeep h⟩
      · rw [not_or] at hkeep
        obtain ⟨a, ha⟩ := ne_none_iff_exists'.mp hkeep.1
        have hall : ∀ l : List V, (∀ w ∈ l, w ∈ N.dependents v) → ∀ F : V → Option A,
            ∃ touched F', N.Spreads F (l ++ pending) touched F' := by
          intro l
          induction l with
          | nil =>
            intro _ F
            exact hpending F
          | cons w l ihl =>
            intro hl F
            have hw := hN.rank_lt (hl w (by simp))
            exact ih w (by omega) _ (ihl fun u hu => hl u (by simp [hu])) F
        obtain ⟨touched, F', h⟩ := hall _ (fun _ hw => hw) (Function.update F v (some a))
        exact ⟨v :: touched, F', .change ha (fun heq => hkeep.2 (ha.trans heq.symm)) h⟩
  induction pending generalizing F with
  | nil => exact ⟨[], F, .done F⟩
  | cons v pending ih => exact hvisit _ v (Nat.le_refl _) pending ih F

theorem Ordered.grounded_update {F : V → Option A} (hF : N.Grounded F) {a : A}
    (hv : N.value F v = some a) : N.Grounded (Function.update F v (some a)) := by
  intro w hw
  have hold : (N.value F w).isSome := by
    rcases eq_or_ne w v with rfl | hne
    · rw [hv]
      rfl
    · rw [update_of_ne hne] at hw
      exact hF w hw
  obtain ⟨hloaded, hbefore⟩ := hN.isSome_value.mp hold
  refine hN.isSome_value.mpr ⟨hloaded, fun u hu => ?_⟩
  rcases eq_or_ne u v with rfl | hne
  · rw [update_self]
    rfl
  · rw [update_of_ne hne]
    exact hbefore u hu

theorem Ordered.solves_of_spreads {F F' : V → Option A} {pending touched : List V}
    (h : N.Spreads F pending touched F') (hgrounded : N.Grounded F)
    (hsettled : ∀ v, v ∉ pending → N.Settled F v) : N.Solves F' := by
  induction h with
  | done F => exact fun v => hsettled v (by simp)
  | @keep F _ w _ _ hkeep _ ih =>
    refine ih hgrounded fun v hv => ?_
    rcases eq_or_ne v w with rfl | hne
    · rcases hkeep with hnone | hsame
      · have hmissing : F v = none := by
          by_contra hsome
          have hvalue := hgrounded v (isSome_iff_ne_none.mpr hsome)
          rw [hnone] at hvalue
          cases hvalue
        exact hnone.trans hmissing.symm
      · exact hsame
    · exact hsettled v (by simp [hne, hv])
  | @change F _ w a _ _ hvalue _ _ ih =>
    refine ih (hN.grounded_update hgrounded hvalue) fun v hv => ?_
    rw [List.mem_append, not_or] at hv
    change N.value _ v = _
    rw [hN.value_update_of_not_mem F _ hv.1]
    rcases eq_or_ne v w with rfl | hne
    · rw [update_self, hvalue]
    · rw [update_of_ne hne]
      exact hsettled v (by simp [hne, hv.2])

theorem Ordered.nodup_of_spreads {F F' S : V → Option A} {pending touched : List V}
    (h : N.Spreads F pending touched F') (hS : N.Solves S)
    (hF : ∀ v a, F v = some a → S v = some a) : touched.Nodup ∧ ∀ v ∈ touched, F v = none := by
  induction h with
  | done F => exact ⟨List.nodup_nil, by simp⟩
  | keep _ _ ih => exact ih hF
  | @change F _ w a _ touched hvalue hne _ ih =>
    have hcomputed : S w = some a := by
      have hbefore := (hN.isSome_value.mp (isSome_iff_exists.mpr ⟨a, hvalue⟩)).2
      rw [← hS w, ← hvalue]
      refine hN.value_congr fun u hu => ?_
      obtain ⟨b, hb⟩ := isSome_iff_exists.mp (hbefore u hu)
      rw [hb, hF u b hb]
    have hnew : F w = none := by
      cases hw : F w with
      | none => rfl
      | some b =>
        have hb := hF w b hw
        rw [hcomputed] at hb
        exact absurd (hw.trans hb.symm) hne
    have hupdate : ∀ v b, Function.update F w (some a) v = some b → S v = some b := by
      intro v b hb
      rcases eq_or_ne v w with rfl | hvw
      · rw [update_self] at hb
        rw [hcomputed, hb]
      · rw [update_of_ne hvw] at hb
        exact hF v b hb
    obtain ⟨hnodup, hmissing⟩ := ih hupdate
    have hother : ∀ v ∈ touched, v ≠ w := by
      rintro v hv rfl
      have hnone := hmissing v hv
      rw [update_self] at hnone
      cases hnone
    refine ⟨List.nodup_cons.mpr ⟨fun hw => hother w hw rfl, hnodup⟩, fun v hv => ?_⟩
    rcases List.mem_cons.mp hv with rfl | hmem
    · exact hnew
    · have hnone := hmissing v hmem
      rwa [update_of_ne (hother v hmem)] at hnone

end Ordered

end Network

end QdkEc
