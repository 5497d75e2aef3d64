import QdkEc.DeqRuntime.ReweightHandler

/-!
# Losses in decoder graphs

This module models what a coordinator does with observed atom losses: it ignores them,
hands them to the decoder, or raises the probabilities of the edges that a loss
activates, and how one shot is decoded with a loaded graph and without one.  The
weights of probabilities are a parameter: they are logarithms in the program.
-/

namespace QdkEc

/-- A loss site with the errors it activates, by error model. -/
structure RawLossSite (K : Type) where
  localEid : Option ℕ
  probability : K
  sourceGenerators : List ℕ
  continuationGenerators : List ℕ
  children : List ℕ
  heralds : List ℕ

/-- A loss site with the edges it activates. -/
structure LossSite (K : Type) where
  sourceEdges : List ℕ
  continuationEdges : List ℕ
  probability : K
  children : List ℕ
  heralds : List ℕ

/-- The weights of probabilities and their inverse, with the arithmetic of weights. -/
structure WeightScale (K W : Type) where
  weightOf : K → W
  probabilityOfWeight : W → K
  zero : W
  add : W → W → W
  max : W → W → W
  scale : W → W → W
  mean : W → ℕ → W

/-- The weight that an activated edge is lowered from. -/
inductive ReweightScale
  | localScale
  | globalMean
  | neighbourhoodMean
deriving DecidableEq

/-- How losses reweight their edges. -/
structure EnvelopeReweightPolicy (W : Type) where
  weightFraction : W
  scale : ReweightScale

/-- What is done with losses. -/
inductive LossHandler (W : Type)
  | ignore
  | reweight (policy : EnvelopeReweightPolicy W)
  | handoff

section LossInfo

variable {K : Type}

def edgeOfError (errorReference : List ErrorIndex) : AList fun _ : ℕ × ℕ => ℕ :=
  errorReference.zipIdx.foldl (fun edges reference =>
    edges.insert (reference.1.eid, reference.1.errorIndex) reference.2) ∅

/-- The edges of some generators, sorted; a generator without an edge is left out. -/
def mapEdges (edges : AList fun _ : ℕ × ℕ => ℕ) (localEid : Option ℕ) (generators : List ℕ) :
    List ℕ :=
  localEid.elim [] fun eid =>
    sortIndices (generators.filterMap fun generator => edges.lookup (eid, generator)).dedup

/-- The loss sites of a shot on the edges of a graph. -/
def buildLossInfo (lossSites : List (RawLossSite K)) (errorReference : List ErrorIndex) :
    List (LossSite K) :=
  lossSites.map fun site => {
    sourceEdges := mapEdges (edgeOfError errorReference) site.localEid site.sourceGenerators
    continuationEdges :=
      mapEdges (edgeOfError errorReference) site.localEid site.continuationGenerators
    probability := site.probability
    children := site.children
    heralds := site.heralds }

end LossInfo

section Accumulate

variable {K : Type}

/-- The parents of the sites; a child that is no site is left out. -/
def parentsOf (sites : List (LossSite K)) : List (List ℕ) :=
  sites.zipIdx.foldl (fun parents site =>
    site.1.children.foldl (fun parents child => parents.modify child (· ++ [site.2])) parents)
    (List.replicate sites.length [])

/-- The probability of a site or one before it, with the sites that are done; a site on the way is
not counted again. -/
def accumulateSite [Ring K] (sites : List (LossSite K)) (parents : List (List ℕ))
    (visiting : List Bool) (accumulated : List (Option K)) (index : ℕ) :
    K × List (Option K) :=
  match (accumulated[index]?).join with
  | some value => (value, accumulated)
  | none =>
    if _ : visiting[index]? = some false then
      let total := ((parents[index]?).getD []).foldl (fun total parent =>
        let before := accumulateSite sites parents (visiting.set index true) total.2 parent
        (unionProbabilityOf total.1 before.1, before.2))
        ((sites[index]?).elim 0 LossSite.probability, accumulated)
      (total.1, total.2.set index (some total.1))
    else (0, accumulated)
termination_by visiting.count false
decreasing_by
  have hfresh : visiting[index]? = some false := by assumption
  obtain ⟨hlt, hget⟩ := List.getElem?_eq_some_iff.mp hfresh
  have hpos : 0 < visiting.count false := List.count_pos_iff.mpr (List.mem_of_getElem? hfresh)
  rw [List.count_set hlt, hget]
  rw [if_pos BEq.rfl, if_neg (by decide)]
  omega

def accumulatedSiteProbabilities [Ring K] (sites : List (LossSite K)) : List K :=
  ((List.range sites.length).foldl (fun accumulated index =>
    (accumulateSite sites (parentsOf sites) (List.replicate sites.length false) accumulated
      index).2) (List.replicate sites.length none)).map fun value => value.getD 0

def activate [Ring K] (activations : List ℕ × GidMap K) (edge : ℕ) (probability : K) :
    List ℕ × GidMap K :=
  (activations.2.lookup edge).elim
    (activations.1 ++ [edge], activations.2.insert edge probability) fun before =>
    (activations.1, activations.2.insert edge (exclusiveProbabilityOf before probability))

def activateSite [Ring K] (activations : List ℕ × GidMap K) (site : LossSite K × K) :
    List ℕ × GidMap K :=
  let sources := site.1.sourceEdges.foldl (fun activations edge =>
    activate activations edge
      (if edge ∈ site.1.continuationEdges then site.2 else site.1.probability)) activations
  (site.1.continuationEdges.filter fun edge => !site.1.sourceEdges.contains edge).foldl
    (fun activations edge => activate activations edge site.2) sources

end Accumulate

section Scales

variable {K W : Type} [Field K] [DecidableEq K] (scale : WeightScale K W)

def regularMeanWeight (hypergraph : DecodingHypergraph K) : W :=
  let regular := hypergraph.hyperedges.filter fun hyperedge => hyperedge.probability ≠ 0
  if regular.isEmpty then scale.zero
  else scale.mean (regular.foldl (fun total hyperedge =>
    scale.add total (scale.weightOf hyperedge.probability)) scale.zero) regular.length

def edgesOfVertex (hypergraph : DecodingHypergraph K) (vertex : ℕ) : List ℕ :=
  (hypergraph.hyperedges.zipIdx.filter fun entry => entry.1.probability ≠ 0).flatMap fun entry =>
    (entry.1.vertices.filter (· = vertex)).map fun _ => entry.2

def neighbourhoodMeanWeight (hypergraph : DecodingHypergraph K) (edge : ℕ) :
    Option W := do
  let hyperedge ← hypergraph.hyperedges[edge]?
  let neighbours := (hyperedge.vertices.flatMap (edgesOfVertex hypergraph)).reverse.dedup.reverse
  if neighbours.isEmpty then none
  else some (scale.mean (neighbours.foldl (fun total neighbour =>
    scale.add total (scale.weightOf
      ((hypergraph.hyperedges[neighbour]?).elim 0 Hyperedge.probability))) scale.zero)
    neighbours.length)

variable {scale}

/-- A fraction of a weight. -/
def scaledProbability (scale : WeightScale K W) (policy : EnvelopeReweightPolicy W) (weight : W) :
    K :=
  scale.probabilityOfWeight (scale.scale policy.weightFraction (scale.max weight scale.zero))

/-- A fraction of the weight of an edge that is activated. -/
def locallyReweightedProbability (scale : WeightScale K W) (policy : EnvelopeReweightPolicy W)
    (edgeProbability activationProbability : K) :
    K :=
  scaledProbability scale policy
    (scale.weightOf (exclusiveProbabilityOf edgeProbability activationProbability))

/-- The probability of an edge that is activated. -/
def lossReweight (scale : WeightScale K W) (policy : EnvelopeReweightPolicy W)
    (hypergraph : DecodingHypergraph K) (edge : ℕ) (activation : K) :
    K :=
  let prior := (hypergraph.hyperedges[edge]?).elim 0 Hyperedge.probability
  match policy.scale with
  | .localScale => locallyReweightedProbability scale policy prior activation
  | .globalMean => scaledProbability scale policy (regularMeanWeight scale hypergraph)
  | .neighbourhoodMean =>
    (neighbourhoodMeanWeight scale hypergraph edge).elim
      (locallyReweightedProbability scale policy prior activation)
      (scaledProbability scale policy)

/-- The probabilities of the edges that losses activate. -/
def lossReweights (scale : WeightScale K W) (sites : List (LossSite K))
    (hypergraph : DecodingHypergraph K) (policy : EnvelopeReweightPolicy W) :
    List (ℕ × K) :=
  let activations :=
    (sites.zip (accumulatedSiteProbabilities sites)).foldl activateSite ([], ∅)
  activations.1.map fun edge =>
    (edge, lossReweight scale policy hypergraph edge ((activations.2.lookup edge).getD 0))

end Scales

namespace LossHandler

variable {K W : Type}

/-- Losses are used. -/
def tracksLosses : LossHandler W → Bool
  | .ignore => false
  | _ => true

/-- The decoder gets the losses. -/
def handsOffToDecoder : LossHandler W → Bool
  | .handoff => true
  | _ => false

def reweightPolicy : LossHandler W → Option (EnvelopeReweightPolicy W)
  | .reweight policy => some policy
  | _ => none

variable [Field K] [LinearOrder K]

/-- Assign a probability to an edge that is there. -/
def setProbability (hyperedges : List (Hyperedge K)) (assignment : ℕ × K) : List (Hyperedge K) :=
  hyperedges.modify assignment.1 fun hyperedge =>
    { hyperedge with probability := assignment.2 }

/-- Apply the losses of a shot to a graph. -/
def applySites (handler : LossHandler W) (scale : WeightScale K W)
    (hypergraph : DecodingHypergraph K) (lossSites : List (RawLossSite K))
    (errorReference : List ErrorIndex) :
    Option (DecodingHypergraph K × Option (List (LossSite K))) :=
  if !handler.tracksLosses || lossSites.isEmpty then some (hypergraph, none)
  else
    let loss := buildLossInfo lossSites errorReference
    if handler.handsOffToDecoder then some (hypergraph, some loss)
    else do
      let policy ← handler.reweightPolicy
      some ({ hypergraph with
        hyperedges := (lossReweights scale loss hypergraph policy).foldl setProbability
          hypergraph.hyperedges }, none)

/-- The probabilities, the losses and the errors of a shot on a loaded graph. -/
structure ProjectedShot (K : Type) where
  reweights : List (ℕ × K)
  loss : Option (List (LossSite K))
  errors : ProjectedErrors

/-- Replace the probability of an edge, or add it. -/
def replaceReweight (combined : List (ℕ × K) × GidMap ℕ) (assignment : ℕ × K) :
    List (ℕ × K) × GidMap ℕ :=
  (combined.2.lookup assignment.1).elim
    (combined.1 ++ [assignment], combined.2.insert assignment.1 combined.1.length)
    fun position => (combined.1.set position (assignment.1, assignment.2), combined.2)

/-- The probabilities of a shot after its losses. -/
def combineReweights (probabilityReweights lossReweights : List (ℕ × K)) : List (ℕ × K) :=
  let positions := probabilityReweights.zipIdx.foldl (fun positions entry =>
    positions.insert entry.1.1 entry.2) (∅ : GidMap ℕ)
  (lossReweights.foldl replaceReweight (probabilityReweights, positions)).1

/-- Translate the probabilities and losses of a shot to a loaded graph. -/
def projectShot (handler : LossHandler W) (scale : WeightScale K W)
    (projection : DecodeProjection K) (probabilityReweights : List (ℕ × K))
    (lossSites : List (RawLossSite K)) :
    Option (ProjectedShot K) :=
  if probabilityReweights.isEmpty && lossSites.isEmpty then do
    let projected ← projectReweights projection []
    some ⟨[], none, projected.2⟩
  else
    let loss :=
      if handler.tracksLosses && !lossSites.isEmpty then
        some (buildLossInfo lossSites projection.baseErrors)
      else none
    if handler.handsOffToDecoder then do
      let projected ← projectReweights projection probabilityReweights
      some ⟨projected.1, loss, projected.2⟩
    else do
      let combined ← loss.elim (some probabilityReweights) fun loss => do
        let hypergraph ← applyReweights projection.baseHypergraph probabilityReweights
        let policy ← handler.reweightPolicy
        some (combineReweights probabilityReweights (lossReweights scale loss hypergraph policy))
      let projected ← projectReweights projection combined
      some ⟨projected.1, none, projected.2⟩

end LossHandler

/-- A decoding problem: the graph, the syndrome and the losses. -/
structure DecodingProblem (K : Type) where
  hypergraph : DecodingHypergraph K
  syndrome : List Bool
  loss : Option (List (LossSite K))

/-- A request to the decoder: a problem, or probabilities for the loaded graph. -/
inductive DecodeRequest (K : Type)
  | loaded
      (syndrome : List Bool)
      (reweights : List (ℕ × K))
      (loss : Option (List (LossSite K)))
  | problem (problem : DecodingProblem K)

section Decode

variable {K W : Type} [Field K] [LinearOrder K]

/-- The request for a shot on a loaded graph. -/
def decodeProjected (loaded : LoadedDecoder K) (syndrome : List Bool) (reweights : List (ℕ × K))
    (loss : Option (List (LossSite K))) (useLoadedReweights : Bool) :
    Option (DecodeRequest K) := do
  let reweights := reweights.filter fun assignment =>
    !loaded.hardSuppressedEdges.contains assignment.1
  if reweights.isEmpty || useLoadedReweights then
    some (.loaded syndrome reweights loss)
  else
    let hypergraph ← loaded.decodingHypergraph
    let hypergraph := hardDecodingHypergraph hypergraph loaded.logicalFlips
    let hypergraph ← applyReweights hypergraph reweights
    some (.problem ⟨hypergraph, syndrome, loss⟩)

/-- The problem that a request asks for. -/
def DecodeRequest.materialize (loaded : LoadedDecoder K) :
    DecodeRequest K → Option (DecodingProblem K)
  | .loaded syndrome reweights loss => do
      let hypergraph ← applyReweights loaded.hardHypergraph reweights
      some ⟨hypergraph, syndrome, loss⟩
  | .problem temporary => some temporary

/-- What a coordinator is configured to do with a shot. -/
structure ShotConfig (W : Type) where
  handler : LossHandler W
  mergeHyperedges : Bool
  ignoreIsolatedVertices : Bool
  forcedGap : Bool
  assertParityFactor : Bool
  useLoadedReweights : Bool

/-- The graph is kept where a shot can need it. -/
def ShotConfig.retainDecodingHypergraph (config : ShotConfig W) : Bool :=
  config.forcedGap || !config.useLoadedReweights || config.assertParityFactor

/-- Edges are merged unless the decoder gets the losses. -/
def ShotConfig.deduplicate (config : ShotConfig W) : Bool :=
  config.mergeHyperedges && !config.handler.handsOffToDecoder

def decodePersistent (config : ShotConfig W) (scale : WeightScale K W)
    (hypergraph : DecodingHypergraph K) (errors : List ErrorIndex) (logicalFlips : List (List ℕ))
    (mergeClass : ErrorIndex → ℕ) (modifiers : List (ℕ × ProbabilityModifier K))
    (lossSites : List (RawLossSite K)) (syndrome : List Bool) :
    Option (LoadedDecoder K × DecodeRequest K × ProjectedErrors) := do
  let prepared := prepareDecoder hypergraph errors logicalFlips config.deduplicate mergeClass
  let loaded := loadProjectedDecoder prepared.1 prepared.2 config.retainDecodingHypergraph
    config.ignoreIsolatedVertices
  let reweights := loaded.projection.errorEdgeLookup.project modifiers
  let projected ← config.handler.projectShot scale loaded.projection reweights lossSites
  let request ← decodeProjected loaded (loaded.projectSyndrome syndrome) projected.reweights
    projected.loss config.useLoadedReweights
  some (loaded, request, projected.errors)

/-- Decode a shot without a persistent decoder: the problem and the errors of its edges. -/
def decodeTemporary (config : ShotConfig W) (scale : WeightScale K W)
    (hypergraph : DecodingHypergraph K) (errors : List ErrorIndex) (logicalFlips : List (List ℕ))
    (mergeClass : ErrorIndex → ℕ) (modifiers : List (ℕ × ProbabilityModifier K))
    (lossSites : List (RawLossSite K)) (syndrome : List Bool) :
    Option (DecodingProblem K × List ErrorIndex) := do
  let reweights := probabilityReweights errors modifiers
  let hypergraph ← applyReweights hypergraph reweights
  let (hypergraph, loss) ← config.handler.applySites scale hypergraph lossSites errors
  let prepared :=
    if config.deduplicate then deduplicateDecoderInput hypergraph errors logicalFlips mergeClass
    else ⟨hypergraph, errors, logicalFlips⟩
  let syndrome :=
    if config.ignoreIsolatedVertices then
      ignoreEdgeIsolatedHistoryVertices prepared.hypergraph syndrome
    else syndrome
  some (⟨hardDecodingHypergraph prepared.hypergraph prepared.logicalFlips, syndrome, loss⟩,
    prepared.representatives)

end Decode

end QdkEc
