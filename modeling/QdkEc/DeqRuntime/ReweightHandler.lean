import QdkEc.DeqRuntime.PauliFrameTracker

/-!
# Decoder graphs and their reweights

This module models how decoder graphs are prepared: hyperedges with one syndrome are
merged, edges without a syndrome are suppressed, and the probabilities of a shot are
translated to a graph that was loaded before.  Probabilities are elements of an ordered
field.  `none` is a panic: an index out of range.
-/

namespace QdkEc

/-- An error of an error model. -/
structure ErrorIndex where
  eid : ℕ
  errorIndex : ℕ
deriving DecidableEq

/-- A hyperedge of a decoder graph. -/
structure Hyperedge (K : Type) where
  vertices : List ℕ
  probability : K
  observableFlips : Option (List ℕ)
deriving DecidableEq

/-- A decoder graph. -/
structure DecodingHypergraph (K : Type) where
  vertexNum : ℕ
  hyperedges : List (Hyperedge K)
deriving DecidableEq

/-- The probabilities that a shot assigns to the errors of an error model. -/
structure ProbabilityModifier (K : Type) where
  probabilities : List K
  sparseIndices : List ℕ
  sparseProbabilities : List K

section Probabilities

variable {K : Type}

/-- The probability that one of two independent events happens, but not both. -/
def exclusiveProbabilityOf [Ring K] (a b : K) : K :=
  a + b - ((2 : ℕ) : K) * a * b

/-- The probability that at least one of two independent events happens. -/
def unionProbabilityOf [Ring K] (a b : K) : K :=
  a + (1 - a) * b

end Probabilities

/-- The edges of errors, by error model; `none` is a missing edge. -/
structure ErrorEdgeLookup where
  edgesByEid : GidMap (List (Option ℕ))

namespace ErrorEdgeLookup

/-- Note the edge of an error. -/
def record (lookup : ErrorEdgeLookup) (reference : ErrorIndex × ℕ) : ErrorEdgeLookup where
  edgesByEid :=
    let edges := (lookup.edgesByEid.lookup reference.1.eid).getD []
    let edges := edges ++ List.replicate (reference.1.errorIndex + 1 - edges.length) none
    lookup.edgesByEid.insert reference.1.eid
      (edges.set reference.1.errorIndex (some reference.2))

/-- The edges of all errors of a graph. -/
def new (errorReference : List ErrorIndex) : ErrorEdgeLookup :=
  errorReference.zipIdx.foldl record ⟨∅⟩

def edge (edges : List (Option ℕ)) (errorIndex : ℕ) : Option ℕ :=
  (edges[errorIndex]?).join

variable {K : Type}

/-- Assign a probability to the edge of an error. -/
def override (edges : List (Option ℕ)) (overrides : GidMap K) (assignment : ℕ × K) : GidMap K :=
  (edge edges assignment.1).elim overrides fun edge => overrides.insert edge assignment.2

def assignments (modifier : ProbabilityModifier K) : List (ℕ × K) :=
  modifier.probabilities.zipIdx.map Prod.swap ++
    modifier.sparseIndices.zip modifier.sparseProbabilities

/-- Translate modifiers of error models to edges. -/
def project (lookup : ErrorEdgeLookup) (modifiers : List (ℕ × ProbabilityModifier K)) :
    List (ℕ × K) :=
  let overrides := modifiers.foldl (fun overrides modifier =>
    (lookup.edgesByEid.lookup modifier.1).elim overrides fun edges =>
      (assignments modifier.2).foldl (override edges) overrides) (∅ : GidMap K)
  (overrides.entries.map fun entry => (entry.1, entry.2)).insertionSort fun a b => a.1 ≤ b.1

end ErrorEdgeLookup

section Reweights

variable {K : Type}

/-- Translate the modifiers of a shot to the edges of a graph. -/
def probabilityReweights (errorReference : List ErrorIndex)
    (modifiers : List (ℕ × ProbabilityModifier K)) :
    List (ℕ × K) :=
  (ErrorEdgeLookup.new errorReference).project modifiers

/-- Assign a probability to an edge. -/
def reweight (hyperedges : List (Hyperedge K)) (assignment : ℕ × K) :
    Option (List (Hyperedge K)) := do
  let hyperedge ← hyperedges[assignment.1]?
  some (hyperedges.set assignment.1 { hyperedge with probability := assignment.2 })

/-- Assign probabilities to the edges of a graph. -/
def applyReweights (hypergraph : DecodingHypergraph K) (reweights : List (ℕ × K)) :
    Option (DecodingHypergraph K) := do
  let hyperedges ← reweights.foldlM reweight hypergraph.hyperedges
  some { hypergraph with hyperedges := hyperedges }

end Reweights

/-- A decoder graph with an error and logical flips for each edge. -/
structure PreparedDecoderInput (K : Type) where
  hypergraph : DecodingHypergraph K
  representatives : List ErrorIndex
  logicalFlips : List (List ℕ)

/-- How the edges of a decoder graph arise from original edges. -/
inductive EdgeProjection
  | identity
  | merged
      (decoderEdgeOfOriginal : List ℕ)
      (originalEdgesOfDecoder : List (List ℕ))

/-- What makes two edges one: the syndrome, the logical flips, the observable flips and the class
of the error. -/
abbrev MergeKey :=
  List ℕ × List ℕ × Option (List ℕ) × ℕ

/-- An original edge: its position, its hyperedge, its error and its logical flips. -/
structure OriginalEdge (K : Type) where
  position : ℕ
  hyperedge : Hyperedge K
  error : ErrorIndex
  flips : List ℕ

/-- The merge of a part of the original edges. -/
structure Merging (K : Type) where
  seen : AList fun _ : MergeKey => ℕ × K
  hyperedges : List (Hyperedge K)
  logicalFlips : List (List ℕ)
  representatives : List ErrorIndex
  decoderEdgeOfOriginal : List ℕ
  originalEdgesOfDecoder : List (List ℕ)

def sortIndices (indices : List ℕ) : List ℕ :=
  indices.insertionSort (· ≤ ·)

namespace Merging

variable {K : Type}

def originalEdges (hypergraph : DecodingHypergraph K) (errors : List ErrorIndex)
    (logicalFlips : List (List ℕ)) :
    List (OriginalEdge K) :=
  ((hypergraph.hyperedges.zip errors).zip logicalFlips).zipIdx.map fun entry =>
    ⟨entry.2, entry.1.1.1, entry.1.1.2, entry.1.2⟩

def keyOf (mergeClass : ErrorIndex → ℕ) (edge : OriginalEdge K) : MergeKey :=
  (sortIndices edge.hyperedge.vertices, (sortIndices edge.flips).destutter (· ≠ ·),
    edge.hyperedge.observableFlips.map sortIndices, mergeClass edge.error)

/-- Nothing is merged. -/
def empty : Merging K where
  seen := ∅
  hyperedges := []
  logicalFlips := []
  representatives := []
  decoderEdgeOfOriginal := []
  originalEdgesOfDecoder := []

variable [Field K] [LinearOrder K]

/-- Merge an edge into the decoder edge with its key, or make a new one. -/
def add (mergeClass : ErrorIndex → ℕ) (merging : Merging K) (edge : OriginalEdge K) : Merging K :=
  let key := keyOf mergeClass edge
  let probability := edge.hyperedge.probability
  match merging.seen.lookup key with
  | some (index, bestProbability) =>
    { seen :=
        if bestProbability < probability then merging.seen.insert key (index, probability)
        else merging.seen
      hyperedges := merging.hyperedges.modify index fun hyperedge => { hyperedge with
        probability := exclusiveProbabilityOf hyperedge.probability probability }
      logicalFlips := merging.logicalFlips
      representatives :=
        if bestProbability < probability then merging.representatives.set index edge.error
        else merging.representatives
      decoderEdgeOfOriginal := merging.decoderEdgeOfOriginal ++ [index]
      originalEdgesOfDecoder :=
        merging.originalEdgesOfDecoder.modify index (· ++ [edge.position]) }
  | none =>
    let index := merging.representatives.length
    { seen := merging.seen.insert key (index, probability)
      hyperedges := merging.hyperedges ++ [⟨key.1, probability, key.2.2.1⟩]
      logicalFlips := merging.logicalFlips ++ [key.2.1]
      representatives := merging.representatives ++ [edge.error]
      decoderEdgeOfOriginal := merging.decoderEdgeOfOriginal ++ [index]
      originalEdgesOfDecoder := merging.originalEdgesOfDecoder ++ [[edge.position]] }

/-- Merge all edges of a graph. -/
def addAll (mergeClass : ErrorIndex → ℕ) (edges : List (OriginalEdge K)) : Merging K :=
  edges.foldl (add mergeClass) empty

end Merging

section Merge

variable {K : Type} [Field K] [LinearOrder K]

/-- Merge the edges with one syndrome; the error with the highest probability represents them. -/
def deduplicateBySyndrome (hypergraph : DecodingHypergraph K) (errors : List ErrorIndex)
    (logicalFlips : List (List ℕ)) (mergeClass : ErrorIndex → ℕ) :
    PreparedDecoderInput K × EdgeProjection :=
  let merging := Merging.addAll mergeClass (Merging.originalEdges hypergraph errors logicalFlips)
  ({ hypergraph := ⟨hypergraph.vertexNum, merging.hyperedges⟩
     representatives := merging.representatives
     logicalFlips := merging.logicalFlips },
    .merged merging.decoderEdgeOfOriginal merging.originalEdgesOfDecoder)

/-- Merge the edges of a graph for one shot. -/
def deduplicateDecoderInput (hypergraph : DecodingHypergraph K) (errors : List ErrorIndex)
    (logicalFlips : List (List ℕ)) (mergeClass : ErrorIndex → ℕ) :
    PreparedDecoderInput K :=
  (deduplicateBySyndrome hypergraph errors logicalFlips mergeClass).1

end Merge

section Hard

variable {K : Type}

/-- An edge that no syndrome shows but that flips logical targets. -/
def requiresHardDecodingSuppression (hyperedge : Hyperedge K) (logicalFlips : List ℕ) : Bool :=
  hyperedge.observableFlips.isNone && hyperedge.vertices.isEmpty && !logicalFlips.isEmpty

/-- The graph without the edges that no syndrome shows. -/
def hardDecodingHypergraph [Zero K] (hypergraph : DecodingHypergraph K)
    (logicalFlips : List (List ℕ)) :
    DecodingHypergraph K where
  vertexNum := hypergraph.vertexNum
  hyperedges := hypergraph.hyperedges.zipIdx.map fun entry =>
    if (logicalFlips[entry.2]?).any (requiresHardDecodingSuppression entry.1) then
      { entry.1 with probability := 0 }
    else entry.1

def edgeIsolatedVertices (hypergraph : DecodingHypergraph K) : List ℕ :=
  (List.range hypergraph.vertexNum).filter fun vertex =>
    !(hypergraph.hyperedges.any fun hyperedge => hyperedge.vertices.contains vertex)

def clearVertices (vertices : List ℕ) (syndrome : List Bool) : List Bool :=
  vertices.foldl (fun syndrome vertex => syndrome.set vertex false) syndrome

def ignoreEdgeIsolatedHistoryVertices (hypergraph : DecodingHypergraph K) (syndrome : List Bool) :
    List Bool :=
  clearVertices (edgeIsolatedVertices hypergraph) syndrome

end Hard

/-- What translates the probabilities of a shot to a loaded graph. -/
structure DecodeProjection (K : Type) where
  baseHypergraph : DecodingHypergraph K
  baseErrors : List ErrorIndex
  decoderErrors : List ErrorIndex
  errorEdgeLookup : ErrorEdgeLookup
  edgeProjection : EdgeProjection

/-- The errors of the decoder edges, with replacements sorted by edge. -/
structure ProjectedErrors where
  baseline : List ErrorIndex
  replacements : List (ℕ × ErrorIndex)

/-- The error of a decoder edge. -/
def ProjectedErrors.index (errors : ProjectedErrors) (index : ℕ) : Option ErrorIndex :=
  (errors.replacements.find? fun replacement => replacement.1 == index).elim
    errors.baseline[index]? fun replacement => some replacement.2

/-- A loaded graph. -/
structure LoadedDecoder (K : Type) where
  hardHypergraph : DecodingHypergraph K
  decodingHypergraph : Option (DecodingHypergraph K)
  hardSuppressedEdges : List ℕ
  logicalFlips : List (List ℕ)
  ignoredSyndromeVertices : List ℕ
  projection : DecodeProjection K

/-- Clear the bits of the ignored vertices. -/
def LoadedDecoder.projectSyndrome {K : Type} (loaded : LoadedDecoder K) (syndrome : List Bool) :
    List Bool :=
  clearVertices loaded.ignoredSyndromeVertices syndrome

section Loading

variable {K : Type} [Field K] [LinearOrder K]

/-- Prepare a graph for loading. -/
def prepareDecoder (baseHypergraph : DecodingHypergraph K) (baseErrors : List ErrorIndex)
    (baseLogicalFlips : List (List ℕ)) (mergeHyperedges : Bool) (mergeClass : ErrorIndex → ℕ) :
    DecodeProjection K × PreparedDecoderInput K :=
  let prepared :=
    if mergeHyperedges then
      deduplicateBySyndrome baseHypergraph baseErrors baseLogicalFlips mergeClass
    else (⟨baseHypergraph, baseErrors, baseLogicalFlips⟩, .identity)
  ({ baseHypergraph := baseHypergraph
     baseErrors := baseErrors
     decoderErrors := prepared.1.representatives
     errorEdgeLookup := ErrorEdgeLookup.new baseErrors
     edgeProjection := prepared.2 }, prepared.1)

/-- Load a prepared graph. -/
def loadProjectedDecoder (projection : DecodeProjection K) (prepared : PreparedDecoderInput K)
    (retainDecodingHypergraph ignoreIsolatedVertices : Bool) :
    LoadedDecoder K where
  hardHypergraph := hardDecodingHypergraph prepared.hypergraph prepared.logicalFlips
  decodingHypergraph := if retainDecodingHypergraph then some prepared.hypergraph else none
  hardSuppressedEdges :=
    ((prepared.hypergraph.hyperedges.zip prepared.logicalFlips).zipIdx.filter fun entry =>
      requiresHardDecodingSuppression entry.1.1 entry.1.2).map Prod.snd
  logicalFlips := prepared.logicalFlips
  ignoredSyndromeVertices :=
    if ignoreIsolatedVertices then edgeIsolatedVertices prepared.hypergraph else []
  projection := projection

/-- The best original edge so far and its probability. -/
def elect {ι : Type} (elected : Option (ι × K)) (candidate : ι × K) : Option (ι × K) :=
  elected.elim (some candidate) fun best =>
    if best.2 < candidate.2 then some candidate else some best

/-- The probability of a decoder edge and the original edge that represents it, from its original
edges with their probabilities. -/
def combine {ι : Type} (probabilities : List (ι × K)) : K × Option (ι × K) :=
  probabilities.foldl (fun combined entry =>
    (exclusiveProbabilityOf combined.1 entry.2, elect combined.2 entry)) (0, none)

/-- Translate one reweighted decoder edge: its probability, and its error if it is a new one. -/
def projectEdge (projection : DecodeProjection K) (originalEdgesOfDecoder : List (List ℕ))
    (overrides : GidMap K) (decoderEdge : ℕ) :
    Option ((ℕ × K) × Option (ℕ × ErrorIndex)) := do
  let originals ← originalEdgesOfDecoder[decoderEdge]?
  let probabilities ← originals.mapM fun original => do
    let hyperedge ← projection.baseHypergraph.hyperedges[original]?
    some (original, (overrides.lookup original).getD hyperedge.probability)
  let combined := combine probabilities
  let elected ← combined.2
  let decoderError ← projection.decoderErrors[decoderEdge]?
  let baseError ← projection.baseErrors[elected.1]?
  some ((decoderEdge, combined.1),
    if decoderError ≠ baseError then some (decoderEdge, baseError) else none)

/-- Translate the probabilities of a shot to decoder edges. -/
def projectReweights (projection : DecodeProjection K) (reweights : List (ℕ × K)) :
    Option (List (ℕ × K) × ProjectedErrors) :=
  let overrides := reweights.foldl (fun overrides assignment =>
    overrides.insert assignment.1 assignment.2) (∅ : GidMap K)
  match projection.edgeProjection with
  | .identity =>
    some ((overrides.entries.map fun entry => (entry.1, entry.2)).insertionSort
      fun a b => a.1 ≤ b.1, ⟨projection.decoderErrors, []⟩)
  | .merged decoderEdgeOfOriginal originalEdgesOfDecoder => do
      let edges ← reweights.mapM fun assignment => decoderEdgeOfOriginal[assignment.1]?
      let translated ← ((sortIndices edges).destutter (· ≠ ·)).mapM
        (projectEdge projection originalEdgesOfDecoder overrides)
      some (translated.map Prod.fst, ⟨projection.decoderErrors, translated.filterMap Prod.snd⟩)

end Loading

end QdkEc
