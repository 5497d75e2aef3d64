import Mathlib.Data.List.Infix

/-!
# Paths without a file system

This module collects what is used of paths as lists of names and steps to the parent.
Normalization removes each name that is followed by a step to the parent.  A normalized
path is a number of steps to the parent and then names, normalization can be done before
or after a path is joined to the right, and joining names goes further inside.
-/

namespace QdkEc

open List

/-- A step of a path: to the parent, or to something with a name. -/
inductive PathPart (α : Type)
  | up
  | name (a : α)
deriving DecidableEq

/-- A path: whether it starts at the root, and its steps.  Steps that stay where they are leave no
trace. -/
structure LexicalPath (α : Type) where
  rooted : Bool
  parts : List (PathPart α)
deriving DecidableEq

namespace LexicalPath

variable {α : Type}

/-- The path without steps. -/
def empty : LexicalPath α :=
  ⟨false, []⟩

/-- One path after another. -/
def join (first second : LexicalPath α) : LexicalPath α :=
  if second.rooted then second else ⟨first.rooted, first.parts ++ second.parts⟩

/-- The path without its last step. -/
def parent? (path : LexicalPath α) : Option (LexicalPath α) :=
  if path.parts = [] then none else some ⟨path.rooted, path.parts.dropLast⟩

/-- Add a step to steps that are normalized. -/
def pushPart (rooted : Bool) (parts : List (PathPart α)) : PathPart α → List (PathPart α)
  | .name a => parts ++ [.name a]
  | .up =>
    match parts.getLast? with
    | some (.name _) => parts.dropLast
    | _ => if rooted then parts else parts ++ [.up]

/-- Remove names that are followed by steps to the parent. -/
def normalize (path : LexicalPath α) : LexicalPath α :=
  ⟨path.rooted, path.parts.foldl (pushPart path.rooted) []⟩

/-- What is left of a path after another one. -/
def stripPrefix [DecidableEq α] (path base : LexicalPath α) : Option (LexicalPath α) :=
  if path.rooted = base.rooted then
    if base.parts <+: path.parts then some ⟨false, path.parts.drop base.parts.length⟩ else none
  else if base = empty then some path
  else none

/-- A path starts with a step to the parent. -/
def startsWithUp (path : LexicalPath α) : Bool :=
  match path.rooted, path.parts with
  | false, .up :: _ => true
  | _, _ => false

def Inside (path directory : LexicalPath α) : Prop :=
  path.rooted = directory.rooted ∧ directory.parts <+: path.parts

/-- Steps to the parent, none after the root, and then names. -/
def NormalParts (rooted : Bool) (parts : List (PathPart α)) : Prop :=
  ∃ (ups : ℕ) (names : List α),
    parts = List.replicate ups .up ++ names.map .name ∧ (rooted = true → ups = 0)

variable {rooted : Bool} {parts : List (PathPart α)}

theorem foldl_pushPart_names (names : List α) :
    (names.map PathPart.name).foldl (pushPart rooted) parts = parts ++ names.map .name := by
  induction names generalizing parts with
  | nil => exact (append_nil _).symm
  | cons a names ih =>
    rw [map_cons, foldl_cons, ih, pushPart, append_assoc]
    rfl

theorem foldl_pushPart_ups (first second : ℕ) :
    (List.replicate second .up).foldl (pushPart (α := α) false) (List.replicate first .up) =
      List.replicate (first + second) .up := by
  induction second generalizing first with
  | zero => rfl
  | succ second ih =>
    have hpush : pushPart (α := α) false (List.replicate first .up) .up =
        List.replicate (first + 1) .up := by
      rw [pushPart, getLast?_replicate, replicate_succ']
      split
      · rename_i heq
        split at heq
        · cases heq
        · cases heq
      · rfl
    rw [replicate_succ, foldl_cons, hpush, ih]
    congr 1
    omega

/-- A normalized path stays normalized when a step is added. -/
theorem NormalParts.pushPart (h : NormalParts rooted parts) (part : PathPart α) :
    NormalParts rooted (pushPart rooted parts part) := by
  obtain ⟨ups, names, rfl, hroot⟩ := h
  cases part with
  | name a => exact ⟨ups, names ++ [a], by simp [LexicalPath.pushPart], hroot⟩
  | up =>
    rcases eq_nil_or_concat names with rfl | ⟨names, a, rfl⟩
    · cases rooted with
      | true =>
        obtain rfl := hroot rfl
        exact ⟨0, [], rfl, fun _ => rfl⟩
      | false =>
        refine ⟨ups + 1, [], ?_, nofun⟩
        have hups := foldl_pushPart_ups (α := α) ups 1
        rw [map_nil, append_nil, append_nil]
        exact hups
    · refine ⟨ups, names, ?_, hroot⟩
      rw [concat_eq_append, map_append, ← append_assoc, LexicalPath.pushPart,
        map_singleton, getLast?_concat]
      exact dropLast_concat

theorem normalParts_foldl (h : NormalParts rooted parts) (more : List (PathPart α)) :
    NormalParts rooted (more.foldl (LexicalPath.pushPart rooted) parts) := by
  induction more generalizing parts with
  | nil => exact h
  | cons part more ih => exact ih (h.pushPart part)

theorem normalParts_normalize (path : LexicalPath α) :
    NormalParts path.rooted path.normalize.parts :=
  normalParts_foldl ⟨0, [], rfl, fun _ => rfl⟩ path.parts

theorem NormalParts.foldl_eq (h : NormalParts rooted parts) :
    parts.foldl (LexicalPath.pushPart rooted) [] = parts := by
  obtain ⟨ups, names, rfl, hroot⟩ := h
  rw [foldl_append, foldl_pushPart_names]
  congr 1
  cases rooted with
  | true =>
    obtain rfl := hroot rfl
    rfl
  | false => exact (foldl_pushPart_ups 0 ups).trans (by rw [Nat.zero_add])

theorem normalize_normalize (path : LexicalPath α) : path.normalize.normalize = path.normalize :=
  congrArg (LexicalPath.mk path.rooted) (normalParts_normalize path).foldl_eq

theorem normalize_join_of_not_rooted {first second : LexicalPath α} (h : second.rooted = false) :
    (first.join second).normalize =
      ⟨first.rooted, second.parts.foldl (LexicalPath.pushPart first.rooted)
        first.normalize.parts⟩ := by
  rw [join, h, if_neg Bool.false_ne_true]
  exact congrArg (LexicalPath.mk first.rooted) foldl_append

theorem Inside.trans {first second third : LexicalPath α} (h : first.Inside second)
    (h' : second.Inside third) : first.Inside third :=
  ⟨h.1.trans h'.1, h'.2.trans h.2⟩

/-- The number of steps to the parent that a path starts with. -/
def climb : List (PathPart α) → ℕ
  | .up :: parts => climb parts + 1
  | _ => 0

/-- The number of first steps that two paths share. -/
def commonLength {β : Type} [DecidableEq β] (first second : List β) : ℕ :=
  ((first.zip second).takeWhile fun (left, right) => left = right).length

theorem climb_append {more : List (PathPart α)} (hup : more.head? ≠ some .up) :
    climb (parts ++ more) = climb parts := by
  induction parts with
  | nil =>
    cases more with
    | nil => rfl
    | cons part more =>
      cases part with
      | up => exact absurd rfl hup
      | name a => rfl
  | cons part parts ih =>
    cases part with
    | up => exact congrArg (· + 1) ih
    | name a => rfl

theorem climb_dropLast_le (parts : List (PathPart α)) : climb parts.dropLast ≤ climb parts := by
  rcases eq_nil_or_concat parts with rfl | ⟨parts, part, rfl⟩
  · exact le_rfl
  · rw [concat_eq_append, dropLast_concat]
    induction parts with
    | nil => exact Nat.zero_le _
    | cons first parts ih =>
      cases first with
      | up => exact Nat.succ_le_succ ih
      | name a => exact le_rfl

theorem NormalParts.dropLast (h : NormalParts rooted parts) :
    NormalParts rooted parts.dropLast := by
  obtain ⟨ups, names, rfl, hroot⟩ := h
  rcases eq_nil_or_concat names with rfl | ⟨names, a, rfl⟩
  · refine ⟨ups - 1, [], ?_, fun h => by rw [hroot h]⟩
    simp [dropLast_replicate]
  · refine ⟨ups, names, ?_, hroot⟩
    rw [concat_eq_append, map_append, ← append_assoc]
    exact dropLast_concat

theorem climb_eq (ups : ℕ) (names : List α) :
    climb (List.replicate ups .up ++ names.map PathPart.name) = ups := by
  induction ups with
  | zero => cases names <;> rfl
  | succ ups ih => exact congrArg (· + 1) ih

theorem foldl_pushPart_pop (names : List α) :
    (List.replicate names.length .up).foldl (pushPart rooted) (parts ++ names.map .name) =
      parts := by
  induction names using List.reverseRecOn with
  | nil => exact append_nil _
  | append_singleton names a ih =>
    have hpush : LexicalPath.pushPart rooted (parts ++ (names ++ [a]).map .name) .up =
        parts ++ names.map .name := by
      rw [map_append, map_singleton, ← append_assoc, LexicalPath.pushPart, getLast?_concat]
      exact dropLast_concat
    rw [length_append, length_singleton, replicate_succ, foldl_cons, hpush, ih]

variable [DecidableEq α] {directory path : List (PathPart α)}

theorem take_commonLength (directory path : List (PathPart α)) :
    directory.take (commonLength directory path) = path.take (commonLength directory path) := by
  induction directory generalizing path with
  | nil => simp [commonLength]
  | cons part directory ih =>
    cases path with
    | nil => simp [commonLength]
    | cons part' path =>
      by_cases heq : part = part'
      · simpa [commonLength, heq] using ih path
      · simp [commonLength, heq]

theorem climb_le_commonLength (h : climb directory ≤ climb path) :
    climb directory ≤ commonLength directory path := by
  induction directory generalizing path with
  | nil => exact Nat.zero_le _
  | cons part directory ih =>
    cases part with
    | name a => exact Nat.zero_le _
    | up =>
      match path, h with
      | .up :: path, h =>
        have hle := ih (Nat.le_of_succ_le_succ h)
        simpa [climb, commonLength] using hle

theorem foldl_relative (hdirectory : NormalParts false directory) (hpath : NormalParts false path)
    (h : climb directory ≤ climb path) :
    (List.replicate (directory.length - commonLength directory path) PathPart.up ++
      path.drop (commonLength directory path)).foldl (LexicalPath.pushPart false) directory =
        path := by
  have hcommon := climb_le_commonLength h
  have htake := take_commonLength directory path
  set common := commonLength directory path
  obtain ⟨ups, names, hparts, -⟩ := id hdirectory
  have hups : ups ≤ common := by rwa [hparts, climb_eq] at hcommon
  have hrest : directory.drop common = (names.drop (common - ups)).map .name := by
    rw [hparts, drop_append, length_replicate, drop_replicate, Nat.sub_eq_zero_of_le hups,
      replicate_zero, nil_append, map_drop]
  have hlength : directory.length - common = (names.drop (common - ups)).length := by
    rw [← length_drop, hrest, length_map]
  have hpop : (List.replicate (directory.length - common) .up).foldl
      (LexicalPath.pushPart false) directory = path.take common := by
    rw [hlength, ← htake]
    nth_rewrite 1 [← take_append_drop common directory]
    rw [hrest, foldl_pushPart_pop]
  have hprefix : NormalParts false (path.take common) := by
    rw [← hpop]
    exact normalParts_foldl hdirectory _
  rw [foldl_append, hpop]
  nth_rewrite 1 [← hprefix.foldl_eq]
  rw [← foldl_append, take_append_drop, hpath.foldl_eq]

end LexicalPath

end QdkEc
