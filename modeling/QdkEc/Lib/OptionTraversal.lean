import Mathlib.Data.List.Forall2
import Mathlib.Data.List.Induction

/-!
# Traversals that may fail

This module collects what is used of loops over lists whose steps may fail: all steps
succeed, whether one fails depends on the steps only, and equal steps give equal
results.
-/

namespace QdkEc

open List Option

section MapM

variable {α β : Type} {f : α → Option β} {l : List α}

theorem mapM_eq_some {g : α → β} (h : ∀ a ∈ l, f a = some (g a)) : l.mapM f = some (l.map g) := by
  induction l with
  | nil => rfl
  | cons a l ih =>
    rw [mapM_cons, h a (by simp), ih fun b hb => h b (by simp [hb])]
    rfl

/-- A loop succeeds exactly when every step does. -/
theorem isSome_mapM_iff : (l.mapM f).isSome ↔ ∀ a ∈ l, (f a).isSome := by
  induction l with
  | nil => simp
  | cons a l ih =>
    rw [mapM_cons, forall_mem_cons, ← ih]
    cases f a with
    | none => simp
    | some b => cases l.mapM f <;> simp

theorem mapM_congr {g : α → Option β} (h : ∀ a ∈ l, f a = g a) : l.mapM f = l.mapM g := by
  induction l with
  | nil => rfl
  | cons a l ih => rw [mapM_cons, mapM_cons, h a (by simp), ih fun b hb => h b (by simp [hb])]

/-- The results of a loop are the results of its steps. -/
theorem mapM_eq_some_iff {bs : List β} :
    l.mapM f = some bs ↔ List.Forall₂ (fun a b => f a = some b) l bs := by
  induction l generalizing bs with
  | nil =>
    constructor
    · intro h
      obtain rfl := some_inj.mp h
      exact .nil
    · rintro ⟨⟩
      rfl
  | cons a l ih =>
    rw [mapM_cons]
    constructor
    · intro h
      obtain ⟨b, hb, h⟩ := bind_eq_some_iff.mp h
      obtain ⟨bs', hbs', h⟩ := bind_eq_some_iff.mp h
      obtain rfl := some_inj.mp h
      exact .cons hb (ih.mp hbs')
    · rintro (⟨⟩ | ⟨hb, hbs⟩)
      rw [hb, ih.mpr hbs]
      rfl

/-- The members of a loop's result are the results of its steps. -/
theorem mem_mapM_iff {bs : List β} (h : l.mapM f = some bs) {b : β} :
    b ∈ bs ↔ ∃ a ∈ l, f a = some b := by
  induction l generalizing bs with
  | nil =>
    obtain rfl := some_inj.mp h
    simp
  | cons a l ih =>
    obtain _ | ⟨hb, hbs⟩ := mapM_eq_some_iff.mp h
    rw [mem_cons, ih (mapM_eq_some_iff.mpr hbs), exists_mem_cons_iff, hb, some_inj, eq_comm]

theorem exists_getElem?_of_mapM {bs : List β} (h : l.mapM f = some bs) {i : ℕ} {b : β}
    (hb : bs[i]? = some b) : ∃ a, l[i]? = some a ∧ f a = some b := by
  have hforall := mapM_eq_some_iff.mp h
  obtain ⟨hlt, rfl⟩ := List.getElem?_eq_some_iff.mp hb
  have hlt' : i < l.length := by rwa [hforall.length_eq]
  exact ⟨_, List.getElem?_eq_getElem hlt', hforall.get hlt' hlt⟩

theorem forall₂_of_mapM {γ : Type} {g : α → Option γ} {R : β → γ → Prop}
    (h : ∀ a ∈ l, ∀ b c, f a = some b → g a = some c → R b c) {bs : List β} {cs : List γ}
    (hf : l.mapM f = some bs) (hg : l.mapM g = some cs) : List.Forall₂ R bs cs := by
  induction l generalizing bs cs with
  | nil =>
    obtain rfl := some_inj.mp hf
    obtain rfl := some_inj.mp hg
    exact .nil
  | cons a l ih =>
    obtain _ | ⟨hb, hbs⟩ := mapM_eq_some_iff.mp hf
    obtain _ | ⟨hc, hcs⟩ := mapM_eq_some_iff.mp hg
    exact .cons (h a mem_cons_self _ _ hb hc)
      (ih (fun a' ha' => h a' (mem_cons_of_mem _ ha')) (mapM_eq_some_iff.mpr hbs)
        (mapM_eq_some_iff.mpr hcs))

theorem mapM_zipWith {γ δ : Type} {g : α → Option γ} {k : α → Option δ} {op : β → γ → δ}
    (h : ∀ a ∈ l, ∀ b c, f a = some b → g a = some c → k a = some (op b c)) {bs : List β}
    {cs : List γ} (hf : l.mapM f = some bs) (hg : l.mapM g = some cs) :
    l.mapM k = some (List.zipWith op bs cs) := by
  induction l generalizing bs cs with
  | nil =>
    obtain rfl := some_inj.mp hf
    rfl
  | cons a l ih =>
    obtain _ | ⟨hb, hbs⟩ := mapM_eq_some_iff.mp hf
    obtain _ | ⟨hc, hcs⟩ := mapM_eq_some_iff.mp hg
    rw [mapM_cons, h a mem_cons_self _ _ hb hc,
      ih (fun a' ha' => h a' (mem_cons_of_mem _ ha')) (mapM_eq_some_iff.mpr hbs)
        (mapM_eq_some_iff.mpr hcs)]
    rfl

theorem map_eq_of_mapM {γ : Type} {g : α → γ} {k : β → γ} (h : ∀ a b, f a = some b → k b = g a)
    {bs : List β} (hrun : l.mapM f = some bs) : bs.map k = l.map g := by
  induction l generalizing bs with
  | nil =>
    obtain rfl := some_inj.mp hrun
    rfl
  | cons a l ih =>
    obtain _ | ⟨hb, hbs⟩ := mapM_eq_some_iff.mp hrun
    rw [map_cons, map_cons, h a _ hb, ih (mapM_eq_some_iff.mpr hbs)]

theorem exists_forall₂_comp {γ : Type} {R : α → β → Prop} {S : β → γ → Prop} {as : List α}
    {cs : List γ} (h : List.Forall₂ (fun a c => ∃ b, R a b ∧ S b c) as cs) :
    ∃ bs, List.Forall₂ R as bs ∧ List.Forall₂ S bs cs := by
  induction h with
  | nil => exact ⟨[], .nil, .nil⟩
  | cons hac _ ih =>
    obtain ⟨b, hab, hbc⟩ := hac
    obtain ⟨bs, hR, hS⟩ := ih
    exact ⟨b :: bs, .cons hab hR, .cons hbc hS⟩

theorem forall₂_comp {γ : Type} {R : α → β → Prop} {S : β → γ → Prop} {as : List α} {bs : List β}
    {cs : List γ} (hR : List.Forall₂ R as bs) (hS : List.Forall₂ S bs cs) :
    List.Forall₂ (fun a c => ∃ b, R a b ∧ S b c) as cs := by
  induction hR generalizing cs with
  | nil =>
    cases hS
    exact .nil
  | cons hab _ ih =>
    cases hS with
    | cons hbc hS => exact .cons ⟨_, hab, hbc⟩ (ih hS)

end MapM

section FoldlM

variable {α β : Type} {f : β → α → Option β}

/-- What holds before a loop and is kept by its steps holds after it. -/
theorem foldlM_induction (P : List α → β → Prop) {b b' : β} {l : List α} (hinit : P [] b)
    (hstep : ∀ done a b b', P done b → f b a = some b' → P (done ++ [a]) b')
    (hrun : l.foldlM f b = some b') : P l b' := by
  induction l using List.reverseRecOn generalizing b' with
  | nil =>
    cases hrun
    exact hinit
  | append_singleton l a ih =>
    rw [foldlM_append] at hrun
    obtain ⟨mid, hmid, hrun⟩ := bind_eq_some_iff.mp hrun
    obtain ⟨last, hlast, hrun⟩ := bind_eq_some_iff.mp hrun
    cases hrun
    exact hstep l a mid _ (ih hmid) hlast

theorem foldlM_eq_ite {I : β → Prop} {P : α → Prop} [DecidablePred P] {g : β → α → β} {l : List α}
    (hstep : ∀ a ∈ l, ∀ b, I b → f b a = if P a then some (g b a) else none)
    (hkeep : ∀ b a, I b → I (g b a)) {b : β} (hb : I b) :
    l.foldlM f b = if ∀ a ∈ l, P a then some (l.foldl g b) else none := by
  induction l generalizing b with
  | nil => simp
  | cons a l ih =>
    rw [foldlM_cons, hstep a (by simp) b hb]
    by_cases ha : P a
    · rw [if_pos ha, bind_eq_bind, bind_some,
        ih (fun c hc => hstep c (by simp [hc])) (hkeep b a hb)]
      simp [ha]
    · simp [ha]

end FoldlM

section Except

/-- A computation that succeeds has steps that succeed. -/
theorem exists_of_bind_eq_ok {E A B : Type} {x : Except E A} {f : A → Except E B} {b : B}
    (h : (x >>= f) = .ok b) : ∃ a, x = .ok a ∧ f a = .ok b := by
  cases x with
  | error error => cases h
  | ok a => exact ⟨a, rfl, h⟩

theorem forM_eq_ok {A E : Type} {check : A → Except E Unit} {l : List A}
    (h : l.forM check = .ok ()) : ∀ a ∈ l, check a = .ok () := by
  induction l with
  | nil => exact fun _ ha => absurd ha not_mem_nil
  | cons first rest ih =>
    obtain ⟨_, hfirst, hrest⟩ := exists_of_bind_eq_ok h
    exact forall_mem_cons.mpr ⟨hfirst, ih hrest⟩

end Except

section Rel

variable {α β γ δ : Type} {R : α → β → Prop} {S : γ → δ → Prop}

/-- Related values are continued to related values. -/
theorem rel_bind {x : Option α} {y : Option β} {f : α → Option γ} {g : β → Option δ}
    (h : Option.Rel R x y) (hstep : ∀ a b, R a b → Option.Rel S (f a) (g b)) :
    Option.Rel S (x.bind f) (y.bind g) := by
  cases h with
  | some hab => exact hstep _ _ hab
  | none => exact .none

/-- A value is continued to related values. -/
theorem rel_bind_self (x : Option α) {f : α → Option γ} {g : α → Option δ}
    (hstep : ∀ a, x = some a → Option.Rel S (f a) (g a)) : Option.Rel S (x.bind f) (x.bind g) := by
  cases x with
  | none => exact .none
  | some a => exact hstep a rfl

theorem rel_mono {R' : α → β → Prop} {x : Option α} {y : Option β} (h : Option.Rel R x y)
    (hmono : ∀ a b, R a b → R' a b) : Option.Rel R' x y := by
  cases h with
  | some hab => exact .some (hmono _ _ hab)
  | none => exact .none

theorem rel_map {x : Option α} {y : Option β} {f : α → γ} {g : β → δ} (h : Option.Rel R x y)
    (hstep : ∀ a b, R a b → S (f a) (g b)) : Option.Rel S (x.map f) (y.map g) := by
  cases h with
  | some hab => exact .some (hstep _ _ hab)
  | none => exact .none

theorem map_eq_of_rel {x : Option α} {y : Option β} {f : α → γ} {g : β → γ} (h : Option.Rel R x y)
    (himage : ∀ a b, R a b → f a = g b) : x.map f = y.map g := by
  cases h with
  | some hab => rw [map_some, map_some, himage _ _ hab]
  | none => rfl

theorem rel_foldlM {f : α → γ → Option α} {g : β → γ → Option β}
    (hstep : ∀ a b c, R a b → Option.Rel R (f a c) (g b c)) {l : List γ} {a : α} {b : β}
    (h : R a b) : Option.Rel R (l.foldlM f a) (l.foldlM g b) := by
  induction l generalizing a b with
  | nil => exact .some h
  | cons c l ih =>
    exact rel_bind (hstep a b c h) fun _ _ hab => ih hab

theorem rel_getElem? {as : List α} {bs : List β} (h : List.Forall₂ R as bs) (i : ℕ) :
    Option.Rel R as[i]? bs[i]? := by
  induction h generalizing i with
  | nil => exact .none
  | cons hab _ ih =>
    cases i with
    | zero => exact .some hab
    | succ i => exact ih i

theorem forall₂_set {as : List α} {bs : List β} (h : List.Forall₂ R as bs) {a : α} {b : β}
    (hab : R a b) (i : ℕ) : List.Forall₂ R (as.set i a) (bs.set i b) := by
  induction h generalizing i with
  | nil => exact .nil
  | cons hhead htail ih =>
    cases i with
    | zero => exact .cons hab htail
    | succ i => exact .cons hhead (ih i)

end Rel

end QdkEc
