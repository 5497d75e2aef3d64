import QdkEc.Qodec.ArtifactPaths

/-!
# References between saved artifacts

This module models the references that documents write for each other: a reference is
relative to the directory of the document it is in, and moving a gadget rewrites its
references.  Inside of one output root every reference leads back to its document.
-/

namespace QdkEc

open List LexicalPath

namespace Save

/-- The components of a path; the first one of a rooted path is the root. -/
def components (path : FilePath) : List (Option (PathPart String)) :=
  (if path.rooted then [none] else []) ++ path.parts.map some

/-- The reference to a document from another one. -/
def relativeReference (source target : FilePath) : FilePath :=
  let target := target.normalize
  if target.rooted then target
  else
    let fromComponents := components (parentOrEmpty source.normalize)
    let common := commonLength fromComponents (components target)
    ⟨false, List.replicate (fromComponents.length - common) .up ++ target.parts.drop common⟩

/-- The instruction that a gadget realizes. -/
structure Implements where
  instructionSet : FilePath
  mnemonic : String
deriving DecidableEq

/-- A section of a document: inside of it, or in a file of its own. -/
inductive Sourced (α : Type)
  | inline (value : α)
  | file (path : FilePath)
deriving DecidableEq

/-- What is used of the circuit of a gadget. -/
structure CircuitSpec where
  instructionSet : Option FilePath
  source : Sourced String
deriving DecidableEq

/-- What is used of a gadget: the sections that refer to other documents. -/
structure GadgetSpec (C R : Type) where
  implements : Option Implements
  circuit : CircuitSpec
  checks : Sourced C
  readouts : Sourced R
deriving DecidableEq

variable {C R α : Type}

/-- Rewrite the reference of a section for a document that is moved. -/
def rebaseSection (source target : FilePath) : Sourced α → Sourced α
  | .inline value => .inline value
  | .file path => .file (relativeReference target (resolveRelative source path))

/-- Rewrite the references of a gadget that is moved. -/
def rebaseGadget (gadget : GadgetSpec C R) (source target : FilePath) : GadgetSpec C R where
  implements := gadget.implements.map fun implements =>
    { implements with
      instructionSet :=
        relativeReference target (resolveRelative source implements.instructionSet) }
  circuit := {
    instructionSet := gadget.circuit.instructionSet.map fun instructionSet =>
      relativeReference target (resolveRelative source instructionSet)
    source := rebaseSection source target gadget.circuit.source }
  checks := rebaseSection source target gadget.checks
  readouts := rebaseSection source target gadget.readouts

/-- The references of a section. -/
def Sourced.references : Sourced α → List FilePath
  | .inline _ => []
  | .file path => [path]

def GadgetSpec.references (gadget : GadgetSpec C R) : List FilePath :=
  gadget.implements.toList.map Implements.instructionSet ++
    gadget.circuit.instructionSet.toList ++ gadget.circuit.source.references ++
    gadget.checks.references ++ gadget.readouts.references

/-- A section with the file that it refers to. -/
def Sourced.resolved (referrer : FilePath) : Sourced α → Sourced α
  | .inline value => .inline value
  | .file path => .file (resolveRelative referrer path)

/-- A gadget with the files that it refers to. -/
def GadgetSpec.resolved (referrer : FilePath) (gadget : GadgetSpec C R) : GadgetSpec C R where
  implements := gadget.implements.map fun implements =>
    { implements with instructionSet := resolveRelative referrer implements.instructionSet }
  circuit := {
    instructionSet := gadget.circuit.instructionSet.map (resolveRelative referrer)
    source := gadget.circuit.source.resolved referrer }
  checks := gadget.checks.resolved referrer
  readouts := gadget.readouts.resolved referrer

/-- A normalized path that the containment check of an output root accepts. -/
structure Contained (root path : FilePath) : Prop where
  normalized : path.normalize = path
  escapes_eq : escapes path root = false

variable {path root source target : FilePath}

theorem rooted_eq_of_escapes (h : escapes path root = false) :
    path.rooted = root.rooted := by
  by_contra hne
  rw [escapes, if_pos hne] at h
  cases h

theorem climb_eq_of_escapes (h : escapes path root = false) :
    path.rooted = false → climb path.parts = climb root.parts := by
  intro hrelative
  have hrooted := rooted_eq_of_escapes h
  rw [escapes, if_neg (not_not.mpr hrooted), stripPrefix, if_pos hrooted] at h
  split_ifs at h with hprefix
  · obtain ⟨rest, hrest⟩ := hprefix
    rw [← hrest, drop_left] at h
    rw [← hrest, climb_append]
    intro hup
    cases rest with
    | nil => cases hup
    | cons part rest =>
      cases hup
      cases h

theorem normalParts_of_normalize (h : path.normalize = path) :
    NormalParts path.rooted path.parts := by
  have hparts := normalParts_normalize path
  rwa [h] at hparts

theorem parts_parentOrEmpty (path : FilePath) :
    (parentOrEmpty path).parts = path.parts.dropLast := by
  rw [parentOrEmpty, parent?]
  split_ifs with hempty
  · rw [hempty]
    rfl
  · rfl

theorem rooted_parentOrEmpty (h : path.rooted = false) :
    (parentOrEmpty path).rooted = false := by
  rw [parentOrEmpty, parent?]
  split_ifs
  · rfl
  · exact h

theorem commonLength_map_some (first second : List (PathPart String)) :
    commonLength (first.map some) (second.map some) = commonLength first second := by
  induction first generalizing second with
  | nil => rfl
  | cons part first ih =>
    cases second with
    | nil => rfl
    | cons part' second =>
      have hrest := ih second
      by_cases heq : part = part' <;> simp_all [commonLength]

theorem resolveRelative_relativeReference
    (h : target.normalize.rooted = true ∨
      Contained root source ∧ escapes target.normalize root = false) :
    resolveRelative source (relativeReference source target) = target.normalize := by
  cases hrooted : target.normalize.rooted with
  | true =>
    rw [relativeReference, if_pos hrooted, resolveRelative, join, if_pos hrooted,
      normalize_normalize]
  | false =>
    obtain ⟨hsource, htarget⟩ := h.resolve_left (by simp [hrooted])
    have hrelative : source.rooted = false :=
      (rooted_eq_of_escapes hsource.escapes_eq).trans
        ((rooted_eq_of_escapes htarget).symm.trans hrooted)
    have hparent := rooted_parentOrEmpty hrelative
    have hdirectory : NormalParts false (parentOrEmpty source).parts := by
      rw [parts_parentOrEmpty]
      exact (hrelative ▸ normalParts_of_normalize hsource.normalized).dropLast
    have hclimb : climb (parentOrEmpty source).parts ≤ climb target.normalize.parts := by
      rw [parts_parentOrEmpty]
      refine (climb_dropLast_le _).trans_eq ?_
      rw [climb_eq_of_escapes hsource.escapes_eq hrelative, climb_eq_of_escapes htarget hrooted]
    have hpath : NormalParts false target.normalize.parts :=
      hrooted ▸ normalParts_of_normalize (normalize_normalize target)
    have hnormalize : (parentOrEmpty source).normalize.parts = (parentOrEmpty source).parts := by
      rw [LexicalPath.normalize, hparent]
      exact hdirectory.foldl_eq
    rw [relativeReference, if_neg (by simp [hrooted]), hsource.normalized, components,
      components, hparent, hrooted, if_neg Bool.false_ne_true, nil_append, nil_append]
    dsimp only
    rw [commonLength_map_some, length_map, resolveRelative, normalize_join_of_not_rooted rfl,
      hparent, hnormalize, foldl_relative hdirectory hpath hclimb, ← hrooted]

/-- A file that a document may refer to: it is rooted, or inside of the output root. -/
def Reachable (root path : FilePath) : Prop :=
  path.rooted = true ∨ escapes path root = false

theorem normalize_resolveRelative (referrer reference : FilePath) :
    (resolveRelative referrer reference).normalize = resolveRelative referrer reference :=
  normalize_normalize _

theorem resolveRelative_rebased {reference : FilePath}
    (htarget : Contained root target) (h : Reachable root (resolveRelative source reference)) :
    resolveRelative target (relativeReference target (resolveRelative source reference)) =
      resolveRelative source reference := by
  have hnormalize := normalize_resolveRelative source reference
  have hfile : (resolveRelative source reference).normalize.rooted = true ∨ Contained root target ∧
      escapes (resolveRelative source reference).normalize root = false := by
    rw [hnormalize]
    exact h.imp_right fun h => ⟨htarget, h⟩
  exact (resolveRelative_relativeReference hfile).trans hnormalize

theorem resolved_rebaseSection (htarget : Contained root target)
    {part : Sourced α} (h : ∀ path ∈ (part.resolved source).references, Reachable root path) :
    (rebaseSection source target part).resolved target = part.resolved source := by
  cases part with
  | inline value => rfl
  | file path =>
    exact congrArg Sourced.file (resolveRelative_rebased htarget (h _ mem_cons_self))

theorem resolved_rebaseGadget (htarget : Contained root target)
    {gadget : GadgetSpec C R}
    (h : ∀ path ∈ (gadget.resolved source).references, Reachable root path) :
    (rebaseGadget gadget source target).resolved target = gadget.resolved source := by
  obtain ⟨implements, ⟨instructionSet, circuitSource⟩, checks, readouts⟩ := gadget
  simp only [GadgetSpec.references, GadgetSpec.resolved, mem_append] at h
  simp only [rebaseGadget, GadgetSpec.resolved, GadgetSpec.mk.injEq, CircuitSpec.mk.injEq,
    Option.map_map]
  refine ⟨?_, ⟨?_, ?_⟩, ?_, ?_⟩
  · cases implements with
    | none => rfl
    | some implements =>
      have hreference := resolveRelative_rebased htarget
        (h (resolveRelative source implements.instructionSet) (by simp))
      simp [hreference]
  · cases instructionSet with
    | none => rfl
    | some instructionSet =>
      exact congrArg some (resolveRelative_rebased htarget (h _ (by simp)))
  · exact resolved_rebaseSection htarget fun path hpath => h path (by simp [hpath])
  · exact resolved_rebaseSection htarget fun path hpath => h path (by simp [hpath])
  · exact resolved_rebaseSection htarget fun path hpath => h path (by simp [hpath])

/-- References between documents of one output root lead back to the documents, normalization
does nothing the second time and removes every step to the parent after a root, and a gadget that
is moved there and back refers to the same files. -/
theorem artifactReferences_invert {C R : Type} :
    (∀ root source target : FilePath,
      (target.normalize.rooted = true ∨
        Contained root source ∧ escapes target.normalize root = false) →
      resolveRelative source (relativeReference source target) = target.normalize) ∧
    (∀ path : FilePath, path.normalize.normalize = path.normalize) ∧
    (∀ path : FilePath, path.rooted = true →
      path.normalize.rooted = true ∧ PathPart.up ∉ path.normalize.parts) ∧
    ∀ (root source target : FilePath) (gadget : GadgetSpec C R), Contained root source →
      Contained root target →
      (∀ path ∈ (gadget.resolved source).references, Reachable root path) →
      (rebaseGadget (rebaseGadget gadget source target) target source).resolved source =
        gadget.resolved source := by
  refine ⟨fun root source target h => resolveRelative_relativeReference h, normalize_normalize,
    fun path hrooted => ⟨hrooted, fun hup => ?_⟩,
    fun root source target gadget hsource htarget h => ?_⟩
  · obtain ⟨ups, names, hparts, hroot⟩ := normalParts_normalize path
    rw [hparts, hroot hrooted] at hup
    simp at hup
  · have hmoved := resolved_rebaseGadget htarget h
    rw [← hmoved] at h ⊢
    exact resolved_rebaseGadget hsource h

/-- The output root of a manifest above the destination. -/
def raisedRoot : FilePath :=
  outputRoot ⟨false, [.up]⟩

/-- A document in a directory of the raised root. -/
def raisedPath (directory : String) : FilePath :=
  ⟨false, [.up, .name directory, .name "t0.gadget.yaml"]⟩

/-- A gadget whose files are beside its directory and at a rooted path. -/
def raisedGadget : GadgetSpec Unit Unit where
  implements := some ⟨⟨false, [.up, .name "is.yaml"]⟩, "CNOT"⟩
  circuit := ⟨none, .file ⟨true, [.name "t0.stim"]⟩⟩
  checks := .inline ()
  readouts := .file ⟨false, [.name "readouts.yaml"]⟩

theorem artifactReferences_invert_raisedGadget :
    resolveRelative (raisedPath "a") (relativeReference (raisedPath "a") (raisedPath "b")) =
        raisedPath "b" ∧
      PathPart.up ∉ (LexicalPath.normalize ⟨true, [.up, .name "b", .up]⟩).parts ∧
      (rebaseGadget (rebaseGadget raisedGadget (raisedPath "a") (raisedPath "b"))
        (raisedPath "b") (raisedPath "a")).resolved (raisedPath "a") =
          raisedGadget.resolved (raisedPath "a") := by
  have hcontained : ∀ directory ∈ ["a", "b"], Contained raisedRoot (raisedPath directory) := by
    simp only [mem_cons, not_mem_nil, or_false, forall_eq_or_imp, forall_eq]
    exact ⟨⟨by decide, by decide⟩, ⟨by decide, by decide⟩⟩
  have hfiles : ∀ path ∈ (raisedGadget.resolved (raisedPath "a")).references,
      Reachable raisedRoot path := by
    unfold Reachable
    decide
  obtain ⟨hinvert, -, hrooted, hrebase⟩ := artifactReferences_invert (C := Unit) (R := Unit)
  exact ⟨hinvert raisedRoot _ _ (Or.inr ⟨hcontained _ (by simp), by decide⟩),
    (hrooted _ rfl).2,
    hrebase raisedRoot _ _ _ (hcontained _ (by simp)) (hcontained _ (by simp)) hfiles⟩

end Save

end QdkEc
