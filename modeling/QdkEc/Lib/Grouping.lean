import Mathlib.Data.List.Nodup
import Mathlib.Data.List.Induction

/-!
# Grouping a list by keys

This module groups the elements of a list by a key.  The groups stand in the order in
which their keys first occur, and every group keeps the order of the list.  The lemmas
say what one more element does: it joins the group of its key, or it is a new last
group.
-/

namespace QdkEc

open List

namespace Grouping

section KeyLists

variable {κ β : Type} [DecidableEq κ]

theorem map_eq_modify_idxOf {keys : List κ} {f g : κ → β} {h : β → β} {key : κ}
    (hnodup : keys.Nodup) (hmem : key ∈ keys) (hkey : g key = h (f key))
    (hother : ∀ other ∈ keys, other ≠ key → g other = f other) :
    keys.map g = (keys.map f).modify (keys.idxOf key) h := by
  induction keys with
  | nil => simp at hmem
  | cons first rest ih =>
    obtain ⟨hfresh, hrest⟩ := nodup_cons.mp hnodup
    by_cases hfirst : first = key
    · subst hfirst
      have hsame : rest.map g = rest.map f :=
        map_congr_left fun other hin =>
          hother other (mem_cons_of_mem _ hin) fun heq => hfresh (heq ▸ hin)
      simp [hsame, hkey]
    · have hin : key ∈ rest := (mem_cons.mp hmem).resolve_left (Ne.symm hfirst)
      rw [idxOf_cons_ne _ hfirst, map_cons, map_cons, modify_succ_cons,
        hother first mem_cons_self hfirst,
        ih hrest hin fun other hmem => hother other (mem_cons_of_mem _ hmem)]

end KeyLists

variable {α κ : Type} [DecidableEq κ] (key : α → κ)

/-- The keys of a list, in the order of their first occurrences. -/
def firstKeys (elements : List α) : List κ :=
  elements.foldl (fun keys element =>
    if key element ∈ keys then keys else keys ++ [key element]) []

/-- The elements with a key. -/
def members (elements : List α) (k : κ) : List α :=
  elements.filter fun element => key element = k

/-- The position of a key. -/
def groupIndex (elements : List α) (k : κ) : ℕ :=
  (firstKeys key elements).idxOf k

@[simp]
theorem firstKeys_nil : firstKeys key [] = [] :=
  rfl

@[simp]
theorem members_nil (k : κ) : members key [] k = [] :=
  rfl

theorem firstKeys_concat (elements : List α) (element : α) : firstKeys key (elements ++ [element]) =
      if key element ∈ firstKeys key elements then firstKeys key elements
      else firstKeys key elements ++ [key element] := by
  rw [firstKeys, foldl_append]
  rfl

variable {elements : List α} {k : κ}

theorem mem_firstKeys : k ∈ firstKeys key elements ↔ ∃ element ∈ elements, key element = k := by
  induction elements using List.reverseRecOn with
  | nil => simp
  | append_singleton elements element ih =>
    rw [firstKeys_concat]
    split
    · rename_i hin
      rw [ih]
      constructor
      · rintro ⟨other, hother, hkey⟩
        exact ⟨other, mem_append_left _ hother, hkey⟩
      · rintro ⟨other, hother, hkey⟩
        rcases mem_append.mp hother with hold | hnew
        · exact ⟨other, hold, hkey⟩
        · rw [mem_singleton.mp hnew] at hkey
          exact ih.mp (hkey ▸ hin)
    · rw [mem_append, ih, mem_singleton]
      constructor
      · rintro (⟨other, hother, hkey⟩ | rfl)
        · exact ⟨other, mem_append_left _ hother, hkey⟩
        · exact ⟨element, by simp, rfl⟩
      · rintro ⟨other, hother, hkey⟩
        rcases mem_append.mp hother with hold | hnew
        · exact .inl ⟨other, hold, hkey⟩
        · rw [mem_singleton.mp hnew] at hkey
          exact .inr hkey.symm

theorem nodup_firstKeys (elements : List α) : (firstKeys key elements).Nodup := by
  induction elements using List.reverseRecOn with
  | nil => simp
  | append_singleton elements element ih =>
    rw [firstKeys_concat]
    split
    · exact ih
    · rename_i hfresh
      exact nodup_append.mpr ⟨ih, nodup_singleton _, fun k hk other hother heq =>
        hfresh (mem_singleton.mp hother ▸ heq ▸ hk)⟩

theorem members_eq_nil (hfresh : k ∉ firstKeys key elements) : members key elements k = [] := by
  refine filter_eq_nil_iff.mpr fun element hin hkey => ?_
  exact hfresh ((mem_firstKeys key).mpr ⟨element, hin, of_decide_eq_true hkey⟩)

theorem members_ne_nil (hkey : k ∈ firstKeys key elements) : members key elements k ≠ [] := by
  obtain ⟨element, hin, heq⟩ := (mem_firstKeys key).mp hkey
  exact ne_nil_of_mem (mem_filter.mpr ⟨hin, decide_eq_true heq⟩)

theorem members_concat_self (elements : List α) (element : α) :
    members key (elements ++ [element]) (key element) =
      members key elements (key element) ++ [element] := by
  simp [members]

variable {element : α}

theorem members_concat_ne (hne : k ≠ key element) :
    members key (elements ++ [element]) k = members key elements k := by
  simp [members, hne.symm]

theorem groupIndex_concat (hkey : k ∈ firstKeys key elements) (element : α) :
    groupIndex key (elements ++ [element]) k = groupIndex key elements k := by
  rw [groupIndex, firstKeys_concat]
  split
  · rfl
  · exact idxOf_append_of_mem hkey

theorem groupIndex_concat_self (hfresh : key element ∉ firstKeys key elements) :
    groupIndex key (elements ++ [element]) (key element) = (firstKeys key elements).length := by
  rw [groupIndex, firstKeys_concat, if_neg hfresh, idxOf_append_of_notMem hfresh]
  simp

theorem groupIndex_lt (hin : element ∈ elements) :
    groupIndex key elements (key element) < (firstKeys key elements).length :=
  idxOf_lt_length_of_mem ((mem_firstKeys key).mpr ⟨element, hin, rfl⟩)

theorem groupIndex_eq {position : ℕ} (hkey : (firstKeys key elements)[position]? = some k) :
    groupIndex key elements k = position := by
  obtain ⟨hlt, rfl⟩ := List.getElem?_eq_some_iff.mp hkey
  exact (nodup_firstKeys key elements).idxOf_getElem position hlt

theorem getElem?_groupIndex (hin : element ∈ elements) :
    (firstKeys key elements)[groupIndex key elements (key element)]? = some (key element) :=
  getElem?_idxOf ((mem_firstKeys key).mpr ⟨element, hin, rfl⟩)

theorem groupIndex_inj (hin : element ∈ elements) :
    groupIndex key elements (key element) = groupIndex key elements k ↔ key element = k :=
  idxOf_inj ((mem_firstKeys key).mpr ⟨element, hin, rfl⟩)

variable {β : Type}

theorem map_firstKeys_concat_of_mem {f g : κ → β} {h : β → β}
    (hold : key element ∈ firstKeys key elements) (hkey : g (key element) = h (f (key element)))
    (hother : ∀ k, k ≠ key element → g k = f k) : (firstKeys key (elements ++ [element])).map g =
      ((firstKeys key elements).map f).modify (groupIndex key elements (key element)) h := by
  rw [firstKeys_concat, if_pos hold]
  exact map_eq_modify_idxOf (nodup_firstKeys key elements) hold hkey
    fun k _ hne => hother k hne

theorem map_firstKeys_concat_of_notMem {f g : κ → β}
    (hfresh : key element ∉ firstKeys key elements) (hother : ∀ k, k ≠ key element → g k = f k) :
    (firstKeys key (elements ++ [element])).map g =
      (firstKeys key elements).map f ++ [g (key element)] := by
  rw [firstKeys_concat, if_neg hfresh, map_append, map_singleton,
    map_congr_left fun k hk => hother k fun heq => hfresh (heq ▸ hk)]

theorem firstKeys_map {change : α → α} (hkey : ∀ element, key (change element) = key element)
    (elements : List α) : firstKeys key (elements.map change) = firstKeys key elements := by
  simp only [firstKeys, foldl_map, hkey]

theorem members_map {change : α → α} (hkey : ∀ element, key (change element) = key element)
    (elements : List α) (k : κ) :
    members key (elements.map change) k = (members key elements k).map change := by
  simp [members, filter_map, Function.comp_def, hkey]

end Grouping

end QdkEc
