import Mathlib.Data.Finset.Card
import Mathlib.Data.List.AList
import QdkEc.Lib.LexicalPaths

/-!
# Paths of saved artifacts

This module models how the documents of a qodec get the paths they are saved at: a loaded
document keeps its path when it stays inside of the output root, and another one gets a
free name beside the manifest.  What is not about paths is left out: a document is a text,
and synthesis is the list of paths it asks for.
-/

namespace QdkEc

namespace Save

/-- A path of the file system. -/
abbrev FilePath : Type :=
  LexicalPath String

/-- The text of a document. -/
abbrev Document : Type :=
  String

/-- The shallowest directory that artifacts may be written in: the output root, or the directory of
a manifest that is not below it. -/
def outputRoot (manifestParent : FilePath) : FilePath :=
  if manifestParent.normalize.rooted ∨ manifestParent.normalize.startsWithUp then
    manifestParent.normalize
  else .empty

/-- A normalized path is not inside of a normalized directory. -/
def escapes (path root : FilePath) : Bool :=
  if path.rooted ≠ root.rooted then true
  else
    match path.stripPrefix root with
    | some rest => rest.startsWithUp
    | none => true

/-- The directory of a path, or the path without steps. -/
def parentOrEmpty (path : FilePath) : FilePath :=
  path.parent?.getD .empty

/-- The path that a document refers to. -/
def resolveRelative (referrer target : FilePath) : FilePath :=
  ((parentOrEmpty referrer).join target).normalize

/-- A character that a file name may not have. -/
def isUnsafeChar (character : Char) : Bool :=
  character.val < 0x20 || (0x7f ≤ character.val && character.val < 0xa0) ||
    character ∈ ['/', '\\', ':', '*', '?', '"', '<', '>', '|']

/-- A name that can be a file name. -/
def safeFilename (stem : String) : String :=
  let characters := stem.toList.map fun character =>
    if isUnsafeChar character then '_' else character
  let name := (characters.reverse.dropWhile fun character =>
    character = '.' || character = ' ').reverse
  if name = [] then "artifact" else String.ofList name

/-- A file that was loaded from outside of the directory of the manifest: its text, and the
document it is read as. -/
structure ExternalFile where
  path : FilePath
  text : String
  document : Option Document
  isSource : Bool
  rooted : path.rooted = true
  normalized : path.normalize = path

/-- A file is still the document of a value. -/
def ExternalFile.matches (file : ExternalFile) (value : Document) : Bool :=
  if file.isSource then file.text = value else file.document = some value

/-- The source of a circuit: inside of the gadget, or a file. -/
inductive CircuitSource
  | inline (text : Document)
  | file (path : FilePath)
deriving DecidableEq

/-- What is used of the document of a gadget. -/
structure GadgetDocument where
  source : CircuitSource
  format : Option String
  content : Document
deriving DecidableEq

/-- Documents by the paths they are saved at. -/
abbrev DocumentMap : Type :=
  AList fun _ : FilePath => Document

/-- The documents that are not gadgets. -/
inductive ArtifactKind
  | instructionSet
  | code
  | checkList
  | readoutList
  | sourceFile
deriving DecidableEq

/-- The documents to be saved. -/
structure Artifacts where
  documents : ArtifactKind → DocumentMap
  gadgets : AList fun _ : FilePath => GadgetDocument

/-- No documents. -/
def Artifacts.empty : Artifacts :=
  ⟨fun _ => ∅, ∅⟩

/-- Add a document. -/
def Artifacts.insert (artifacts : Artifacts) (kind : ArtifactKind) (path : FilePath)
    (value : Document) :
    Artifacts where
  documents := Function.update artifacts.documents kind
    ((artifacts.documents kind).insert path value)
  gadgets := artifacts.gadgets

def Artifacts.paths (artifacts : Artifacts) : List FilePath :=
  (artifacts.documents .instructionSet).keys ++ (artifacts.documents .code).keys ++
    artifacts.gadgets.keys ++ (artifacts.documents .checkList).keys ++
    (artifacts.documents .readoutList).keys ++ (artifacts.documents .sourceFile).keys

/-- The paths that were handed out. -/
structure ArtifactPaths where
  manifestParent : FilePath
  root : FilePath
  relocateLoadedPaths : Bool
  loadedRoot : Option FilePath
  externalFiles : AList fun _ : FilePath => ExternalFile
  destination : Option FilePath
  reused : List FilePath
  reserved : Finset FilePath
  claimed : Finset FilePath

namespace ArtifactPaths

variable (paths : ArtifactPaths)

/-- The path that a loaded document keeps, when it is inside of the output root. -/
def preferredPath (path : FilePath) : Option FilePath := do
  let path ← if path.rooted then paths.loadedRoot.bind path.stripPrefix else some path
  let candidate :=
    if paths.relocateLoadedPaths then (paths.manifestParent.join path).normalize
    else path.normalize
  if escapes candidate paths.root then none else some candidate

/-- The names that are tried for a document, in order. -/
def candidate (stem suffix : String) (index : ℕ) : FilePath :=
  let stem := if index = 0 then stem else stem ++ "." ++ toString index
  (paths.manifestParent.join ⟨false, [.name (stem ++ "." ++ suffix)]⟩).normalize

/-- Hand out the first name that is free.  One more name is tried than are reserved. -/
def allocate (stem suffix : String) : FilePath × ArtifactPaths :=
  let candidates := (List.range (paths.reserved.card + 1)).map
    (paths.candidate (safeFilename stem) suffix)
  let path := (candidates.find? (· ∉ paths.reserved)).getD
    (paths.candidate (safeFilename stem) suffix 0)
  (path, { paths with
    reserved := insert path paths.reserved
    claimed := insert path paths.claimed })

/-- The file outside that a loaded document still is. -/
def external? (preferred : Option FilePath) : Option (FilePath × ExternalFile) := do
  let original ← preferred
  let _ ← paths.destination
  let file ← paths.externalFiles.lookup original
  some (original, file)

/-- Save a document at the path of its file outside, at the path it was loaded from, or at a new
one. -/
def store (artifacts : Artifacts) (kind : ArtifactKind) (preferred : Option FilePath)
    (stem suffix : String) (value : Document) :
    FilePath × ArtifactPaths × Artifacts :=
  match (paths.external? preferred).filter fun entry => entry.2.matches value with
  | some (original, file) =>
    (file.path, { paths with reused := paths.reused ++ [original] }, artifacts)
  | none =>
    let fresh :=
      let allocated := paths.allocate stem suffix
      (allocated.1, allocated.2, artifacts.insert kind allocated.1 value)
    match preferred.bind paths.preferredPath with
    | none => fresh
    | some path =>
      if (artifacts.documents kind).lookup path = some value then (path, paths, artifacts)
      else if path ∈ paths.claimed then fresh
      else
        (path, { paths with
          claimed := insert path paths.claimed
          reserved := insert path paths.reserved }, artifacts.insert kind path value)

end ArtifactPaths

/-- A section of a gadget that is saved in a file of its own. -/
inductive SectionRequest
  | store (kind : ArtifactKind) (preferred : Option FilePath) (stem suffix : String)
      (value : Document)
  | source (stem : String) (text : Document)

/-- A gadget that is saved: its document, given its path and those of its sections, and whether it
is still the file outside that it was loaded from. -/
structure GadgetRequest where
  preferred : Option FilePath
  stem : String
  sections : List SectionRequest
  document : FilePath → List FilePath → GadgetDocument
  matchesExternal : ExternalFile → FilePath → Bool

/-- What synthesis asks for. -/
inductive ArtifactRequest
  | section (request : SectionRequest)
  | gadget (request : GadgetRequest)

/-- Save a section. -/
def SectionRequest.build (paths : ArtifactPaths) (artifacts : Artifacts) :
    SectionRequest → FilePath × ArtifactPaths × Artifacts
  | .store kind preferred stem suffix value =>
    paths.store artifacts kind preferred stem suffix value
  | .source stem text =>
    let allocated := paths.allocate stem "stim"
    (allocated.1, allocated.2, artifacts.insert .sourceFile allocated.1 text)

/-- Save sections in order. -/
def buildSections (paths : ArtifactPaths) (artifacts : Artifacts) :
    List SectionRequest → List FilePath × ArtifactPaths × Artifacts
  | [] => ([], paths, artifacts)
  | request :: requests =>
    let built := request.build paths artifacts
    let rest := buildSections built.2.1 built.2.2 requests
    (built.1 :: rest.1, rest.2)

/-- The path of a gadget: a path that was handed out for a gadget may be used again. -/
def gadgetPath (paths : ArtifactPaths) (artifacts : Artifacts) (preferred : Option FilePath)
    (stem : String) :
    FilePath × ArtifactPaths :=
  match (preferred.bind paths.preferredPath).filter fun path =>
      path ∉ paths.claimed ∨ path ∈ artifacts.gadgets with
  | some path => (path, { paths with claimed := insert path paths.claimed })
  | none => paths.allocate stem "gadget.yaml"

/-- Save a gadget. -/
def GadgetRequest.build (paths : ArtifactPaths) (artifacts : Artifacts) (request : GadgetRequest) :
    ArtifactPaths × Artifacts :=
  let located := gadgetPath paths artifacts request.preferred request.stem
  let sections := buildSections located.2 artifacts request.sections
  let document := request.document located.1 sections.1
  let paths := sections.2.1
  let artifacts := sections.2.2
  match (paths.external? request.preferred).filter fun entry =>
      request.matchesExternal entry.2 located.1 with
  | some (original, _) => ({ paths with reused := paths.reused ++ [original] }, artifacts)
  | none =>
    if (artifacts.gadgets.lookup located.1).all (· = document) then
      (paths, { artifacts with gadgets := artifacts.gadgets.insert located.1 document })
    else
      let separate := paths.allocate request.stem "gadget.yaml"
      (separate.2, { artifacts with
        gadgets := artifacts.gadgets.insert separate.1
          (request.document separate.1 sections.1) })

/-- Save what synthesis asks for. -/
def ArtifactRequest.build (state : ArtifactPaths × Artifacts) :
    ArtifactRequest → ArtifactPaths × Artifacts
  | .section request => (request.build state.1 state.2).2
  | .gadget request => request.build state.1 state.2

end Save

end QdkEc
