import Mathlib.Data.Set.Basic
import Mathlib.Tactic.Basic

/-!
# Paths with costs on the nodes

This module states which nodes are reached at which cost when every step costs what its
target costs.  Labels below a radius that are relaxed bound the costs from above.
-/

namespace QdkEc

variable {A : Type} (sources : Set A) (adjacent : A → A → Prop) (cost : A → ℕ)

/-- A path from a source reaches a node; its steps cost what their targets cost. -/
inductive ReachedAt : ℕ → A → Prop
  | source {x : A} : x ∈ sources → ReachedAt 0 x
  | step {d : ℕ} {x y : A} : ReachedAt d x → adjacent x y → ReachedAt (d + cost y) y

def WithinDistance (radius : ℕ) : Set A :=
  {x | ∃ d ≤ radius, ReachedAt sources adjacent cost d x}

/-- Labels are relaxed below a radius: sources are labelled with zero, and a step from a label
below the radius does not go below the label of its target. -/
structure RelaxedBelow (radius : ℕ) (label : A → Option ℕ) : Prop where
  source : ∀ x ∈ sources, label x = some 0
  step : ∀ x d, label x = some d → d < radius →
    ∀ y, adjacent x y → d + cost y ≤ radius → ∃ e ≤ d + cost y, label y = some e

variable {sources adjacent cost} {radius d : ℕ} {label : A → Option ℕ} {x : A}

namespace RelaxedBelow

theorem exists_label_of_lt (h : RelaxedBelow sources adjacent cost radius label)
    (hx : ReachedAt sources adjacent cost d x) (hd : d < radius) : ∃ e ≤ d, label x = some e := by
  induction hx with
  | source hx => exact ⟨0, le_rfl, h.source _ hx⟩
  | @step d x y hx hxy ih =>
    obtain ⟨e, he, hlabel⟩ := ih (by omega)
    obtain ⟨e', he', hlabel'⟩ := h.step x e hlabel (by omega) y hxy (by omega)
    exact ⟨e', by omega, hlabel'⟩

theorem exists_label_of_le (h : RelaxedBelow sources adjacent cost radius label)
    (hx : ReachedAt sources adjacent cost d x) (hd : d ≤ radius) (hcost : 0 < cost x) :
    ∃ e ≤ d, label x = some e := by
  cases hx with
  | source hx => exact ⟨0, le_rfl, h.source _ hx⟩
  | @step d x y hx hxy =>
    obtain ⟨e, he, hlabel⟩ := h.exists_label_of_lt hx (by omega)
    obtain ⟨e', he', hlabel'⟩ := h.step _ e hlabel (by omega) _ hxy (by omega)
    exact ⟨e', by omega, hlabel'⟩

end RelaxedBelow

end QdkEc
